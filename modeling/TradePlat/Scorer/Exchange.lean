import Mathlib.Data.List.Nodup
import TradePlat.Lib.Runs
import TradePlat.Scorer.ContestantState

/-!
# Any exchange

What the scorer may be shown: an exchange that keeps some resting orders and one
incoming order, and trades the incoming order against whatever resting order it
likes, at the price of that order, as long as the two cross. It may leave an
order resting although it crosses, and cancel. This is not the engine; the
engine is one that always picks the best order. Every event of such an exchange
is well formed and in sequence (`sound_run`), so that the only check of the
scorer that can fail is that of price priority (`reports_pricePriority`).
-/

namespace TradePlat.Exchange
open Runs Binary64 Scorer

/-- An order, with the quantity that is left of it. -/
structure Order where
  orderId : Nat
  isBuy : Bool
  price : Double
  quantity : Nat
  deriving DecidableEq, Repr

structure State where
  resting : List Order
  incoming : Option Order
  lastMatchId : Nat
  lastT2Ns : Nat
  deriving DecidableEq, Repr

/-- The quantity and the times of a trade. -/
structure Terms where
  qty : Nat
  t0Ns : Nat
  t1Ns : Nat
  t2Ns : Nat
  deriving DecidableEq, Repr

inductive Action where
  | submit (order : Order)
  | rest
  | trade (maker : Nat) (terms : Terms)
  | cancel (orderId : Nat)
  deriving DecidableEq, Repr

/-- The empty book, after the match `lastMatchId`. -/
def State.start (lastMatchId : Nat) : State := ⟨[], none, lastMatchId, 0⟩

def State.orders (s : State) : List Order := s.resting ++ s.incoming.toList

/-- The incoming order rests. -/
def State.settle (s : State) : State := { s with resting := s.orders, incoming := none }

/-- The incoming order and the resting order with the id `maker`. -/
def State.parties (s : State) (maker : Nat) : Option (Order × Order) :=
  s.incoming.bind fun taker => (s.resting.find? (·.orderId = maker)).map (taker, ·)

/-- What is left of an order. -/
def Order.fill (o : Order) (q : Nat) : Option Order :=
  if o.quantity ≤ q then none else some { o with quantity := o.quantity - q }

def event (matchId : Nat) (taker maker : Order) (terms : Terms) : TradeEvent where
  matchId := matchId
  buyOrderId := if taker.isBuy then taker.orderId else maker.orderId
  sellOrderId := if taker.isBuy then maker.orderId else taker.orderId
  t0Ns := terms.t0Ns
  t1Ns := terms.t1Ns
  t2Ns := terms.t2Ns
  price := maker.price
  qty := terms.qty

/-- The book behind a trade of the incoming order. -/
def State.traded (s : State) (taker : Order) (maker : Nat) (terms : Terms) : State where
  resting := s.resting.filterMap fun o => if o.orderId = maker then o.fill terms.qty else some o
  incoming := taker.fill terms.qty
  lastMatchId := s.lastMatchId + 1
  lastT2Ns := terms.t2Ns

def step (s : State) : Action → State × List TradeEvent
  | .submit order => ({ s.settle with incoming := some order }, [])
  | .rest => (s.settle, [])
  | .trade maker terms =>
    match s.parties maker with
    | some (taker, r) => (s.traded taker maker terms, [event (s.lastMatchId + 1) taker r terms])
    | none => (s, [])
  | .cancel orderId => ({ s with resting := s.resting.filter (·.orderId ≠ orderId) }, [])

/-! ## Rules -/

def submitted (actions : List Action) : List Order :=
  actions.filterMap fun
    | .submit order => some order
    | _ => none

@[simp] theorem submitted_append (past more : List Action) :
    submitted (past ++ more) = submitted past ++ submitted more := List.filterMap_append

def Crosses (taker maker : Order) : Prop :=
  maker.isBuy = !taker.isBuy ∧
    if taker.isBuy then maker.price ≤ taker.price else taker.price ≤ maker.price

instance (taker maker : Order) : Decidable (Crosses taker maker) :=
  inferInstanceAs (Decidable (_ ∧ _))

/-- A new id that is not zero, and a finite positive price. -/
def Order.New (past : List Action) (order : Order) : Prop :=
  order.orderId ≠ 0 ∧ order.price.IsFinite ∧ Double.zero < order.price ∧ 0 < order.quantity ∧
    order.orderId ∉ (submitted past).map Order.orderId

instance (past : List Action) (order : Order) : Decidable (order.New past) :=
  inferInstanceAs (Decidable (_ ∧ _))

/-- A crossing trade of what both orders have left, at times in order. -/
def Terms.Fair (terms : Terms) (s : State) (taker maker : Order) : Prop :=
  Crosses taker maker ∧ 0 < terms.qty ∧ terms.qty ≤ taker.quantity ∧ terms.qty ≤ maker.quantity ∧
    0 < terms.t0Ns ∧ terms.t0Ns ≤ terms.t1Ns ∧ terms.t1Ns ≤ terms.t2Ns ∧ s.lastT2Ns ≤ terms.t2Ns

instance (terms : Terms) (s : State) (taker maker : Order) : Decidable (terms.Fair s taker maker) :=
  inferInstanceAs (Decidable (_ ∧ _))

def Allowed (past : List Action) (s : State) : Action → Prop
  | .submit order => order.New past
  | .trade maker terms => ∃ p ∈ s.parties maker, terms.Fair s p.1 p.2
  | .rest | .cancel _ => True

instance (past : List Action) (s : State) : DecidablePred (Allowed past s)
  | .submit order => inferInstanceAs (Decidable (order.New past))
  | .trade maker terms => inferInstanceAs (Decidable (∃ p ∈ s.parties maker, terms.Fair s p.1 p.2))
  | .rest => inferInstanceAs (Decidable True)
  | .cancel _ => inferInstanceAs (Decidable True)

/-! ## The orders of a run -/

/-- `r` is `o` up to what was filled of it. -/
def Order.Version (o r : Order) : Prop := r = { o with quantity := r.quantity }

theorem Order.Version.orderId {o r : Order} (h : o.Version r) : r.orderId = o.orderId := by rw [h]
theorem Order.Version.isBuy {o r : Order} (h : o.Version r) : r.isBuy = o.isBuy := by rw [h]
theorem Order.Version.price {o r : Order} (h : o.Version r) : r.price = o.price := by rw [h]

theorem Order.Version.trans {o r t : Order} (h : o.Version r) (h' : r.Version t) :
    o.Version t := by
  unfold Version at *
  rw [h', h]

theorem fill_version {o r : Order} {q : Nat} (h : r ∈ o.fill q) : o.Version r := by
  unfold Order.fill at h
  split at h
  · cases h
  · cases h
    rfl

/-- The orders that are left come from submitted ones, which their ids tell apart. -/
structure Known (past : List Action) (s : State) : Prop where
  ids : ((submitted past).map Order.orderId).Nodup
  proper : ∀ o ∈ submitted past, o.orderId ≠ 0 ∧ o.price.IsFinite ∧ Double.zero < o.price
  distinct : (s.orders.map Order.orderId).Nodup
  known : ∀ r ∈ s.orders, ∃ o ∈ submitted past, o.Version r

theorem known_start (first : Nat) : Known [] (.start first) where
  ids := List.nodup_nil
  proper := by simp [submitted]
  distinct := List.nodup_nil
  known := by simp [State.orders, State.start]

variable {past : List Action} {s s' : State}

/-- Orders may be filled and removed. -/
theorem Known.shrink (h : Known past s)
    (hids : List.Sublist (s'.orders.map Order.orderId) (s.orders.map Order.orderId))
    (hfrom : ∀ r ∈ s'.orders, ∃ o ∈ s.orders, o.Version r) : Known past s' where
  ids := h.ids
  proper := h.proper
  distinct := h.distinct.sublist hids
  known r hr := by
    obtain ⟨o, ho, hv⟩ := hfrom r hr
    obtain ⟨o', ho', hv'⟩ := h.known o ho
    exact ⟨o', ho', hv'.trans hv⟩

theorem Known.same (h : Known past s) {past' : List Action}
    (hpast : submitted past' = submitted past) : Known past' s where
  ids := hpast ▸ h.ids
  proper := hpast ▸ h.proper
  distinct := h.distinct
  known := hpast ▸ h.known

theorem Known.orderId_mem (h : Known past s) {r : Order} (hr : r ∈ s.orders) :
    r.orderId ∈ (submitted past).map Order.orderId := by
  obtain ⟨o, ho, hv⟩ := h.known r hr
  rw [hv.orderId]
  exact List.mem_map_of_mem ho

/-- The id of an order tells which one it is. -/
theorem Known.same_order (h : Known past s) {o o' : Order} (ho : o ∈ submitted past)
    (ho' : o' ∈ submitted past) (hid : o.orderId = o'.orderId) : o = o' :=
  List.inj_on_of_nodup_map h.ids ho ho' hid

theorem settle_orders (s : State) : s.settle.orders = s.orders := List.append_nil _

theorem Known.submit (h : Known past s) {order : Order} (hnew : order.New past) :
    Known (past ++ [.submit order]) (step s (.submit order)).1 := by
  obtain ⟨hid, hfin, hpos, -, hfresh⟩ := hnew
  have hsub : submitted (past ++ [.submit order]) = submitted past ++ [order] := by
    rw [submitted_append]
    rfl
  have horders : (step s (.submit order)).1.orders = s.orders ++ [order] := rfl
  constructor
  · rw [hsub, List.map_append, List.nodup_append]
    refine ⟨h.ids, by simp, fun id hmem id' hmem' => ?_⟩
    rw [List.map_singleton, List.mem_singleton] at hmem'
    rintro rfl
    exact hfresh (hmem' ▸ hmem)
  · intro o ho
    rw [hsub] at ho
    rcases List.mem_append.mp ho with ho | ho
    · exact h.proper o ho
    · rw [List.mem_singleton.mp ho]
      exact ⟨hid, hfin, hpos⟩
  · rw [horders, List.map_append, List.nodup_append]
    refine ⟨h.distinct, by simp, fun id hmem id' hmem' => ?_⟩
    obtain ⟨r, hr, rfl⟩ := List.mem_map.mp hmem
    rw [List.map_singleton, List.mem_singleton] at hmem'
    rintro rfl
    exact hfresh (hmem' ▸ h.orderId_mem hr)
  · intro r hr
    rw [horders] at hr
    rw [hsub]
    rcases List.mem_append.mp hr with hr | hr
    · obtain ⟨o, ho, hv⟩ := h.known r hr
      exact ⟨o, by simp [ho], hv⟩
    · exact ⟨order, by simp, by rw [List.mem_singleton.mp hr]; rfl⟩

theorem parties_eq {maker : Nat} {taker r : Order} (h : s.parties maker = some (taker, r)) :
    s.incoming = some taker ∧ r ∈ s.resting ∧ r.orderId = maker := by
  obtain ⟨t, ht, h⟩ := Option.bind_eq_some_iff.mp h
  obtain ⟨r', hr', h⟩ := Option.map_eq_some_iff.mp h
  cases h
  exact ⟨ht, List.mem_of_find?_eq_some hr', by simpa using List.find?_some hr'⟩

theorem step_trade {maker : Nat} {taker r : Order} (h : s.parties maker = some (taker, r))
    (terms : Terms) : step s (.trade maker terms) =
      (s.traded taker maker terms, [event (s.lastMatchId + 1) taker r terms]) := by
  simp only [step, h]

theorem filterMap_fill (resting : List Order) (maker q : Nat) :
    List.Sublist
        ((resting.filterMap fun o => if o.orderId = maker then o.fill q else some o).map
          Order.orderId)
        (resting.map Order.orderId) ∧
      ∀ r ∈ resting.filterMap (fun o => if o.orderId = maker then o.fill q else some o),
        ∃ o ∈ resting, o.Version r := by
  have hfill : ∀ o : Order, ∀ r ∈ (if o.orderId = maker then o.fill q else some o),
      o.Version r := by
    intro o r hr
    split at hr
    · exact fill_version hr
    · cases hr
      rfl
  constructor
  · induction resting with
    | nil => exact List.Sublist.refl _
    | cons o resting ih =>
      rw [List.filterMap_cons]
      split
      · exact ih.cons _
      · rename_i o' ho'
        rw [List.map_cons, List.map_cons, (hfill o o' ho').orderId]
        exact ih.cons_cons _
  · intro r hr
    obtain ⟨o, ho, hv⟩ := List.mem_filterMap.mp hr
    exact ⟨o, ho, hfill o r hv⟩

theorem Known.trade (h : Known past s) (maker : Nat) (terms : Terms) :
    Known past (step s (.trade maker terms)).1 := by
  cases hp : s.parties maker with
  | none => simpa only [step, hp] using h
  | some p =>
    obtain ⟨taker, r⟩ := p
    obtain ⟨hin, -, -⟩ := parties_eq hp
    rw [step_trade hp]
    obtain ⟨hsub, hfrom⟩ := filterMap_fill s.resting maker terms.qty
    refine h.shrink ?_ fun t ht => ?_
    · simp only [State.orders, List.map_append, hin, Option.toList_some]
      apply List.Sublist.append hsub
      simp only [State.traded]
      cases hf : taker.fill terms.qty with
      | none => exact List.nil_sublist _
      | some t =>
        rw [Option.toList_some, List.map_singleton, (fill_version hf).orderId]
        exact List.Sublist.refl _
    · rcases List.mem_append.mp ht with ht | ht
      · obtain ⟨o, ho, hv⟩ := hfrom t ht
        exact ⟨o, List.mem_append_left _ ho, hv⟩
      · exact ⟨taker, by simp [State.orders, hin], fill_version (Option.mem_toList.mp ht)⟩

theorem Known.next (h : Known past s) {a : Action} (hok : Allowed past s a) :
    Known (past ++ [a]) (step s a).1 := by
  have hsame : ∀ a, (∀ o, a ≠ Action.submit o) → submitted (past ++ [a]) = submitted past := by
    intro a ha
    cases a with
    | submit o => exact absurd rfl (ha o)
    | _ => simp [submitted]
  cases a with
  | submit order => exact h.submit hok
  | rest =>
    refine (h.shrink ?_ fun r hr => ⟨r, ?_, rfl⟩).same (hsame _ (by simp))
    · exact (settle_orders s).symm ▸ List.Sublist.refl _
    · exact settle_orders s ▸ hr
  | trade maker terms => exact (h.trade maker terms).same (hsame _ (by simp))
  | cancel orderId =>
    have hsub : List.Sublist (step s (.cancel orderId)).1.orders s.orders :=
      List.Sublist.append List.filter_sublist (List.Sublist.refl _)
    exact (h.shrink (hsub.map _) fun r hr => ⟨r, hsub.subset hr, rfl⟩).same (hsame _ (by simp))

/-! ## The events of a run -/

/-- The event is a trade of `taker` against `maker`, at the price of `maker`. -/
structure Between (taker maker : Order) (e : TradeEvent) : Prop where
  takerId : e.party taker.isBuy = taker.orderId
  makerId : e.party (!taker.isBuy) = maker.orderId
  price : e.price = maker.price

theorem event_between (matchId : Nat) {taker maker taker' maker' : Order}
    (ht : taker.Version taker') (hm : maker.Version maker') (terms : Terms) :
    Between taker maker (event matchId taker' maker' terms) := by
  rw [ht, hm]
  cases hb : taker.isBuy
  · exact ⟨by simp [event, hb, TradeEvent.party], by simp [event, hb, TradeEvent.party], rfl⟩
  · exact ⟨by simp [event, hb, TradeEvent.party], by simp [event, hb, TradeEvent.party], rfl⟩

/-- The stream so far: what the scorer asks of it, prices aside. -/
structure Told (out : List TradeEvent) (s : State) : Prop where
  wellFormed : ∀ e ∈ out, e.WellFormed
  sequence : out.IsChain TradeEvent.InSequence
  last : ∀ e ∈ out.getLast?, e.matchId = s.lastMatchId ∧ e.t2Ns = s.lastT2Ns

theorem event_wellFormed (h : Known past s) {maker : Nat} {taker r : Order}
    (hp : s.parties maker = some (taker, r)) {terms : Terms} (hfair : terms.Fair s taker r)
    (matchId : Nat) : (event matchId taker r terms).WellFormed := by
  obtain ⟨hin, hmem, -⟩ := parties_eq hp
  obtain ⟨-, hq, -, -, h₀, h₁, h₂, -⟩ := hfair
  have hproper : ∀ o ∈ s.orders, o.orderId ≠ 0 ∧ o.price.IsFinite ∧ Double.zero < o.price := by
    intro o ho
    obtain ⟨o', ho', hv⟩ := h.known o ho
    rw [hv.orderId, hv.price]
    exact h.proper o' ho'
  obtain ⟨ht, -⟩ := hproper taker (by simp [State.orders, hin])
  obtain ⟨hr, hfin, hpos⟩ := hproper r (by simp [State.orders, hmem])
  have hne : r.orderId ≠ taker.orderId := by
    have hd := h.distinct
    rw [State.orders, List.map_append, List.nodup_append] at hd
    exact hd.2.2 _ (List.mem_map_of_mem hmem) _ (by simp [hin])
  cases hb : taker.isBuy
  · exact ⟨by simpa [event, hb] using hr, by simpa [event, hb] using ht,
      by simpa [event, hb] using hne, h₀, h₁, h₂, hfin, hpos, hq⟩
  · exact ⟨by simpa [event, hb] using ht, by simpa [event, hb] using hr,
      by simpa [event, hb] using hne.symm, h₀, h₁, h₂, hfin, hpos, hq⟩

theorem Told.quiet {out : List TradeEvent} (h : Told out s)
    (hid : s'.lastMatchId = s.lastMatchId) (ht : s'.lastT2Ns = s.lastT2Ns) :
    Told (out ++ []) s' := by
  rw [List.append_nil]
  exact ⟨h.wellFormed, h.sequence, by rw [hid, ht]; exact h.last⟩

theorem Told.next {out : List TradeEvent} (h : Told out s) (hk : Known past s) {a : Action}
    (hok : Allowed past s a) : Told (out ++ (step s a).2) (step s a).1 := by
  cases a with
  | trade maker terms =>
    obtain ⟨⟨taker, r⟩, hp, hfair⟩ := hok
    rw [step_trade hp]
    constructor
    · intro e he
      rcases List.mem_append.mp he with he | he
      · exact h.wellFormed e he
      · rw [List.mem_singleton.mp he]
        exact event_wellFormed hk hp hfair _
    · refine List.isChain_append.mpr ⟨h.sequence, List.isChain_singleton _, fun e he e' he' => ?_⟩
      obtain ⟨hid, ht⟩ := h.last e he
      obtain rfl : event (s.lastMatchId + 1) taker r terms = e' := by simpa using he'
      refine ⟨by rw [hid]; rfl, ?_⟩
      rw [ht]
      exact hfair.2.2.2.2.2.2.2
    · intro e he
      obtain rfl : event (s.lastMatchId + 1) taker r terms = e := by simpa using he
      exact ⟨rfl, rfl⟩
  | submit order => exact h.quiet rfl rfl
  | rest => exact h.quiet rfl rfl
  | cancel orderId => exact h.quiet rfl rfl

/-- **Every event of an exchange is well formed and in sequence.** -/
theorem sound_run {first : Nat} {actions : List Action}
    (h : Guarded step Allowed [] (.start first) actions) :
    Known actions (run step (.start first) actions).1 ∧
      Told (outputs step (.start first) actions) (run step (.start first) actions).1 :=
  invariant_run (fun past out s => Known past s ∧ Told out s)
    (fun _ _ _ _ hinv hok => ⟨hinv.1.next hok, hinv.2.next hinv.1 hok⟩)
    ⟨known_start first, ⟨by simp, List.isChain_nil, by simp⟩⟩ h

end TradePlat.Exchange
