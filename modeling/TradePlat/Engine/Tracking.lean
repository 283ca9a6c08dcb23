import TradePlat.Engine.MatchLoop

/-!
# The order locator

`orderMap` and the levels are two views of the same resting orders. `Tracks`
says that they agree exactly: an id is recorded at a location if and only if the
order at that location has that id. The levels are seen as a function from side
and price to a level, empty where there is none, so that `tracks_push` and
`tracks_erase` can be stated without the maps behind it. `refresh_location` is
what the loop of `eraseAt` does to one tracked id.
-/

namespace TradePlat.Engine
open SortedMap

variable {P : Type}

abbrev LevelView (P : Type) := Bool → P → Level P

/-- The order a location points at. -/
def slot (view : LevelView P) (loc : OrderLocation P) : Option (Order P) :=
  (view loc.isBuy loc.price)[loc.vectorIndex]?

/-- The locator records exactly the positions of the orders in the levels. -/
def Tracks (m : OrderMap P) (view : LevelView P) : Prop :=
  ∀ id loc, m id = some loc ↔ ∃ o, slot view loc = some o ∧ o.orderId = id

theorem Tracks.unique {m : OrderMap P} {view : LevelView P} (h : Tracks m view)
    {loc loc' : OrderLocation P} {o o' : Order P} (ho : slot view loc = some o)
    (ho' : slot view loc' = some o') (hid : o.orderId = o'.orderId) : loc = loc' := by
  have h₁ := (h o.orderId loc).mpr ⟨o, ho, rfl⟩
  have h₂ := (h o.orderId loc').mpr ⟨o', ho', hid.symm⟩
  exact Option.some.inj (h₁.symm.trans h₂)

/-- Only the ids of the orders matter. -/
theorem Tracks.congr {m : OrderMap P} {view view' : LevelView P} (h : Tracks m view)
    (hids : ∀ b p, (view' b p).map Order.orderId = (view b p).map Order.orderId) :
    Tracks m view' := by
  intro id loc
  have hslot : ∀ v : LevelView P, (∃ o, slot v loc = some o ∧ o.orderId = id) ↔
      ((v loc.isBuy loc.price).map Order.orderId)[loc.vectorIndex]? = some id := by
    intro v
    simp [slot]
  rw [h id loc, hslot view, hslot view', hids]

section DecidableEq
variable [DecidableEq P]

/-- The view with one level replaced. -/
def setLevel (view : LevelView P) (b : Bool) (p : P) (level : Level P) : LevelView P :=
  fun b' p' => if b' = b ∧ p' = p then level else view b' p'

@[simp] theorem setLevel_self (view : LevelView P) (b : Bool) (p : P) (level : Level P) :
    setLevel view b p level b p = level := by simp [setLevel]

theorem setLevel_other {view : LevelView P} {b b' : Bool} {p p' : P} {level : Level P}
    (h : ¬ (b' = b ∧ p' = p)) : setLevel view b p level b' p' = view b' p' := by
  simp [setLevel, h]

/-- Pushing a new order behind its level records its position. -/
theorem tracks_push {m : OrderMap P} {view : LevelView P} (h : Tracks m view) (o : Order P)
    (hnew : ∀ loc r, slot view loc = some r → r.orderId ≠ o.orderId) :
    Tracks
      (Function.update m o.orderId (some ⟨o.isBuy, o.price, (view o.isBuy o.price).length⟩))
      (setLevel view o.isBuy o.price (view o.isBuy o.price ++ [o])) := by
  intro id loc
  have hslot : ∀ r,
      slot (setLevel view o.isBuy o.price (view o.isBuy o.price ++ [o])) loc = some r ↔
        slot view loc = some r ∨
          (loc = ⟨o.isBuy, o.price, (view o.isBuy o.price).length⟩ ∧ r = o) := by
    intro r
    obtain ⟨b, p, i⟩ := loc
    by_cases hbp : b = o.isBuy ∧ p = o.price
    · obtain ⟨rfl, rfl⟩ := hbp
      simp only [slot, setLevel_self, OrderLocation.mk.injEq, true_and]
      rw [List.getElem?_append]
      grind
    · simp only [slot, setLevel_other hbp, OrderLocation.mk.injEq]
      grind
  by_cases hid : id = o.orderId
  · subst hid
    rw [Function.update_self]
    constructor
    · intro heq
      exact ⟨o, (hslot o).mpr (Or.inr ⟨(Option.some.inj heq).symm, rfl⟩), rfl⟩
    · rintro ⟨r, hr, hrid⟩
      rcases (hslot r).mp hr with hr | ⟨rfl, -⟩
      · exact absurd hrid (hnew loc r hr)
      · rfl
  · rw [Function.update_of_ne hid, h id loc]
    constructor
    · rintro ⟨r, hr, hrid⟩
      exact ⟨r, (hslot r).mpr (Or.inl hr), hrid⟩
    · rintro ⟨r, hr, hrid⟩
      rcases (hslot r).mp hr with hr | ⟨-, rfl⟩
      · exact ⟨r, hr, hrid⟩
      · exact absurd hrid.symm hid

end DecidableEq

/-! ## What the loop of `eraseAt` does -/

theorem refresh_of_not_mem {id : Int32} {rest : Level P} (m : OrderMap P) (i : Nat)
    (h : id ∉ rest.map Order.orderId) : refresh m i rest id = m id := by
  induction rest generalizing m i with
  | nil => rfl
  | cons o rest ih =>
    simp only [List.map_cons, List.mem_cons, not_or] at h
    rw [refresh, ih _ _ h.2]
    cases m o.orderId with
    | none => rfl
    | some loc => exact Function.update_of_ne h.1 _ _

theorem refresh_of_mem {o : Order P} {rest : Level P} (m : OrderMap P) (i j : Nat)
    (hnd : (rest.map Order.orderId).Nodup) (h : rest[j]? = some o) :
    refresh m i rest o.orderId =
      (m o.orderId).map fun loc => { loc with vectorIndex := i + j } := by
  induction rest generalizing m i j with
  | nil => simp at h
  | cons r rest ih =>
    simp only [List.map_cons, List.nodup_cons] at hnd
    rw [refresh]
    cases j with
    | zero =>
      simp only [List.getElem?_cons_zero, Option.some.injEq] at h
      subst h
      rw [refresh_of_not_mem _ _ hnd.1]
      cases hm : m r.orderId <;> simp [hm]
    | succ j =>
      simp only [List.getElem?_cons_succ] at h
      have hne : o.orderId ≠ r.orderId := fun heq =>
        hnd.1 (heq ▸ List.mem_map_of_mem (List.mem_of_getElem? h))
      rw [ih _ _ _ hnd.2 h]
      have hj : i + 1 + j = i + (j + 1) := by omega
      rw [hj]
      congr 1
      cases m r.orderId with
      | none => rfl
      | some loc => exact Function.update_of_ne hne _ _

/-- A location after the order at `gone` has been erased from its level. -/
def shift [DecidableEq P] (gone loc : OrderLocation P) : OrderLocation P :=
  if loc.isBuy = gone.isBuy ∧ loc.price = gone.price ∧ gone.vectorIndex < loc.vectorIndex then
    { loc with vectorIndex := loc.vectorIndex - 1 }
  else loc

theorem shift_behind [DecidableEq P] {gone loc : OrderLocation P}
    (h : loc.isBuy = gone.isBuy ∧ loc.price = gone.price ∧
      gone.vectorIndex < loc.vectorIndex) :
    shift gone loc = { loc with vectorIndex := loc.vectorIndex - 1 } := if_pos h

theorem shift_other [DecidableEq P] {gone loc : OrderLocation P}
    (h : ¬ (loc.isBuy = gone.isBuy ∧ loc.price = gone.price ∧
      gone.vectorIndex < loc.vectorIndex)) :
    shift gone loc = loc := if_neg h

theorem Tracks.nodup {m : OrderMap P} {view : LevelView P} (h : Tracks m view) (b : Bool) (p : P) :
    ((view b p).map Order.orderId).Nodup := by
  apply List.pairwise_iff_getElem.mpr
  intro i j hi hj hij heq
  simp only [List.length_map] at hi hj
  simp only [List.getElem_map] at heq
  have := Tracks.unique h (show slot view ⟨b, p, i⟩ = some _ from List.getElem?_eq_getElem hi)
    (show slot view ⟨b, p, j⟩ = some _ from List.getElem?_eq_getElem hj) heq
  have := congrArg OrderLocation.vectorIndex this
  simp only at this
  omega

/-- The ids behind a location are those recorded behind it. -/
theorem Tracks.mem_behind {m : OrderMap P} {view : LevelView P} (h : Tracks m view)
    (gone : OrderLocation P) (id : Int32) :
    id ∈ ((view gone.isBuy gone.price).drop (gone.vectorIndex + 1)).map Order.orderId ↔
      ∃ k, gone.vectorIndex < k ∧ m id = some { gone with vectorIndex := k } := by
  constructor
  · intro hmem
    obtain ⟨r, hr, rfl⟩ := List.mem_map.mp hmem
    obtain ⟨j, hj⟩ := List.mem_iff_getElem?.mp hr
    rw [List.getElem?_drop] at hj
    exact ⟨gone.vectorIndex + 1 + j, by omega, (h _ _).mpr ⟨r, hj, rfl⟩⟩
  · rintro ⟨k, hk, hm⟩
    obtain ⟨r, hr, rfl⟩ := (h _ _).mp hm
    refine List.mem_map_of_mem (List.mem_iff_getElem?.mpr ⟨k - (gone.vectorIndex + 1), ?_⟩)
    rw [List.getElem?_drop,
      show gone.vectorIndex + 1 + (k - (gone.vectorIndex + 1)) = k by omega]
    exact hr

section Erase
variable [DecidableEq P] {m : OrderMap P} {view : LevelView P} {gone : OrderLocation P}
  {o : Order P}

/-- The locator after the erase of the order at `gone`: every other id is
recorded where its order now is. -/
theorem refresh_location (h : Tracks m view) {id : Int32} (hid : id ≠ o.orderId) :
    refresh (Function.update m o.orderId none) gone.vectorIndex
        ((view gone.isBuy gone.price).drop (gone.vectorIndex + 1)) id =
      (m id).map (shift gone) := by
  by_cases hbehind : ∃ k, gone.vectorIndex < k ∧ m id = some { gone with vectorIndex := k }
  · obtain ⟨k, hk, hm⟩ := hbehind
    obtain ⟨r, hr, rfl⟩ := (h _ _).mp hm
    have hshift : shift gone { gone with vectorIndex := k } =
        { gone with vectorIndex := k - 1 } := shift_behind ⟨rfl, rfl, hk⟩
    have hnd := (h.nodup gone.isBuy gone.price).sublist
      ((List.drop_sublist (gone.vectorIndex + 1) _).map Order.orderId)
    have hj : ((view gone.isBuy gone.price).drop (gone.vectorIndex + 1))[
        k - (gone.vectorIndex + 1)]? = some r := by
      rw [List.getElem?_drop,
        show gone.vectorIndex + 1 + (k - (gone.vectorIndex + 1)) = k by omega]
      exact hr
    rw [refresh_of_mem _ _ _ hnd hj, Function.update_of_ne hid, hm, Option.map_some,
      Option.map_some, hshift]
    have hlast : gone.vectorIndex + (k - (gone.vectorIndex + 1)) = k - 1 := by omega
    simp only [hlast]
  · rw [refresh_of_not_mem _ _ (mt (h.mem_behind gone id).mp hbehind), Function.update_of_ne hid]
    cases hm : m id with
    | none => rfl
    | some loc =>
      rw [Option.map_some, shift_other]
      rintro ⟨hb, hp, hk⟩
      exact hbehind ⟨loc.vectorIndex, hk, by rw [hm, ← hb, ← hp]⟩

/-- Erasing moves the orders behind up by one. -/
theorem slot_erase (view : LevelView P) (gone loc : OrderLocation P) :
    slot (setLevel view gone.isBuy gone.price
        ((view gone.isBuy gone.price).eraseIdx gone.vectorIndex)) loc =
      if loc.isBuy = gone.isBuy ∧ loc.price = gone.price ∧ gone.vectorIndex ≤ loc.vectorIndex then
        slot view { loc with vectorIndex := loc.vectorIndex + 1 }
      else slot view loc := by
  obtain ⟨b, p, i⟩ := gone
  obtain ⟨b', p', k⟩ := loc
  by_cases hbp : b' = b ∧ p' = p
  · obtain ⟨rfl, rfl⟩ := hbp
    simp only [slot, setLevel_self, List.getElem?_eraseIdx, true_and]
    split
    · rw [if_neg (by omega)]
    · rw [if_pos (by omega)]
  · simp only [slot, setLevel_other hbp]
    rw [if_neg (fun h => hbp ⟨h.1, h.2.1⟩)]

/-- An order left by the erase sits where `shift` moves it. -/
theorem slot_erase_iff {view : LevelView P} {gone loc : OrderLocation P} {r : Order P} :
    slot (setLevel view gone.isBuy gone.price
        ((view gone.isBuy gone.price).eraseIdx gone.vectorIndex)) loc = some r ↔
      ∃ loc', loc' ≠ gone ∧ slot view loc' = some r ∧ shift gone loc' = loc := by
  rw [slot_erase]
  obtain ⟨b, p, i⟩ := gone
  constructor
  · intro hr
    split at hr
    · rename_i hb
      refine ⟨{ loc with vectorIndex := loc.vectorIndex + 1 }, ?_, hr, ?_⟩
      · intro heq
        have hi := congrArg OrderLocation.vectorIndex heq
        simp only at hb hi
        omega
      · exact shift_behind ⟨hb.1, hb.2.1, Nat.lt_succ_of_le hb.2.2⟩
    · rename_i hb
      refine ⟨loc, ?_, hr, shift_other fun hc => hb ⟨hc.1, hc.2.1, Nat.le_of_lt hc.2.2⟩⟩
      rintro rfl
      exact hb ⟨rfl, rfl, Nat.le_refl _⟩
  · rintro ⟨⟨b', p', k⟩, hne, hr, rfl⟩
    by_cases hbehind : b' = b ∧ p' = p ∧ i < k
    · obtain ⟨rfl, rfl, hik⟩ := hbehind
      have hshift : shift ⟨b', p', i⟩ ⟨b', p', k⟩ = (⟨b', p', k - 1⟩ : OrderLocation P) :=
        shift_behind ⟨rfl, rfl, hik⟩
      rw [hshift, if_pos ⟨rfl, rfl, Nat.le_sub_one_of_lt hik⟩]
      simpa only [show k - 1 + 1 = k by omega] using hr
    · rw [shift_other hbehind, if_neg]
      · exact hr
      · rintro ⟨hb, hp, hik⟩
        rcases Nat.lt_or_eq_of_le hik with hlt | heq
        · exact hbehind ⟨hb, hp, hlt⟩
        · exact hne (OrderLocation.mk.injEq .. ▸ ⟨hb, hp, heq.symm⟩)

/-- **Erasing a tracked order keeps the locator exact.** -/
theorem tracks_erase (h : Tracks m view) (ho : slot view gone = some o) :
    Tracks
      (eraseAt (Function.update m o.orderId none) (view gone.isBuy gone.price)
        gone.vectorIndex).1
      (setLevel view gone.isBuy gone.price
        ((view gone.isBuy gone.price).eraseIdx gone.vectorIndex)) := by
  have hlen : ¬ (view gone.isBuy gone.price).length ≤ gone.vectorIndex := by
    intro hle
    rw [slot, List.getElem?_eq_none hle] at ho
    cases ho
  have hdrop : ((view gone.isBuy gone.price).eraseIdx gone.vectorIndex).drop gone.vectorIndex =
      (view gone.isBuy gone.price).drop (gone.vectorIndex + 1) := by
    rw [List.eraseIdx_eq_take_drop_succ, List.drop_append_of_le_length (by simp; omega)]
    simp
  have hgone : m o.orderId = some gone := (h _ _).mpr ⟨o, ho, rfl⟩
  intro id loc
  rw [eraseAt, if_neg hlen, hdrop]
  dsimp only
  simp only [slot_erase_iff]
  by_cases hid : id = o.orderId
  · -- the erased id is recorded nowhere, and no order left has it
    subst hid
    have hnot : ¬ ∃ k, gone.vectorIndex < k ∧
        m o.orderId = some { gone with vectorIndex := k } := by
      rintro ⟨k, hk, hm⟩
      have hi := congrArg OrderLocation.vectorIndex (Option.some.inj (hgone.symm.trans hm))
      simp only at hi
      omega
    rw [refresh_of_not_mem _ _ (mt (h.mem_behind gone o.orderId).mp hnot), Function.update_self]
    constructor
    · intro hnone
      cases hnone
    · rintro ⟨r, ⟨loc', hne, hr, -⟩, hrid⟩
      exact absurd (h.unique hr ho hrid) hne
  · rw [refresh_location h hid, Option.map_eq_some_iff]
    constructor
    · rintro ⟨loc', hm, rfl⟩
      obtain ⟨r, hr, rfl⟩ := (h id loc').mp hm
      refine ⟨r, ⟨loc', ?_, hr, rfl⟩, rfl⟩
      rintro rfl
      rw [ho] at hr
      exact hid (congrArg Order.orderId (Option.some.inj hr)).symm
    · rintro ⟨r, ⟨loc', -, hr, rfl⟩, hrid⟩
      exact ⟨loc', (h id loc').mpr ⟨r, hr, hrid⟩, rfl⟩

theorem setLevel_setLevel (view : LevelView P) (b : Bool) (p : P) (level level' : Level P) :
    setLevel (setLevel view b p level) b p level' = setLevel view b p level' := by
  funext b' p'
  by_cases h : b' = b ∧ p' = p
  · obtain ⟨rfl, rfl⟩ := h
    rw [setLevel_self, setLevel_self]
  · rw [setLevel_other h, setLevel_other h, setLevel_other h]

/-- Filling the front order of a level, and dropping it where it is filled,
keeps the locator exact. -/
theorem tracks_consumeFront (h : Tracks m view) {b : Bool} {p : P} {rest : Level P}
    (hview : view b p = o :: rest) (q : Int32) :
    Tracks (consumeFront m (o.reduce q) (o.reduce q :: rest)).1
      (setLevel view b p (afterFill o q rest)) := by
  have hreduced : Tracks m (setLevel view b p (o.reduce q :: rest)) := by
    apply h.congr
    intro b' p'
    by_cases hbp : b' = b ∧ p' = p
    · obtain ⟨rfl, rfl⟩ := hbp
      simp [hview]
    · rw [setLevel_other hbp]
  unfold consumeFront afterFill
  by_cases hz : o.quantity - q = 0
  · have hfront : slot (setLevel view b p (o.reduce q :: rest)) ⟨b, p, 0⟩ = some (o.reduce q) := by
      simp [slot]
    have herased := tracks_erase hreduced hfront
    simp only [setLevel_self, setLevel_setLevel, List.eraseIdx_zero, List.tail_cons] at herased
    simpa only [reduce_quantity, hz, ↓reduceIte] using herased
  · simpa only [reduce_quantity, hz, ↓reduceIte] using hreduced

end Erase

end TradePlat.Engine
