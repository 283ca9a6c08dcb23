import TradePlat.Lib.RunningNumbers
import TradePlat.System.WireFidelity

/-!
# Order ids of a fleet (`main.py`)

`main` numbers its bots from 1, and each bot counts its order ids up from a million
times its number. That keeps the ids of two bots apart for a million orders. The
engine sees an id modulo `2 ^ 32`, so what counts is the distance of two bots' ranges
going round `2 ^ 32` (`fleet_ids_unique_iff`).

`format_order` takes the id before anything is sent, so an order lost in `send_order`
uses up its id as well. Where `struct.pack` raises, the task of the bot ends.
-/

namespace TradePlat.FleetIds
open Runs Engine Gateway WireFidelity Binary64 RunningNumbers

/-! ## The fleet -/

/-- `Bot.__init__`. -/
def newBot (botId : Nat) : Bot := ⟨botId * 1000000⟩

/-- The loop of `main` over `bot_configs`. The classes differ in the orders they choose only. -/
def spawn : Nat → List Int → List Bot
  | _, [] => []
  | botId, count :: configs =>
    (List.range count.toNat).map (fun k => newBot (botId + k)) ++
      spawn (botId + count.toNat) configs

def fleet (mm noise momentum : Int) : List Bot := spawn 1 [mm, noise, momentum]

/-- The bots are numbered on from class to class. -/
theorem spawn_getElem {botId i : Nat} {configs : List Int} {bot : Bot}
    (h : (spawn botId configs)[i]? = some bot) : bot = newBot (botId + i) := by
  induction configs generalizing botId i with
  | nil => simp [spawn] at h
  | cons count configs ih =>
    rw [spawn] at h
    by_cases hi : i < count.toNat
    · rw [List.getElem?_append_left (by simpa using hi)] at h
      simpa [hi, eq_comm] using h
    · rw [List.getElem?_append_right (by simpa using hi)] at h
      have hbot := ih h
      rw [hbot, List.length_map, List.length_range,
        show botId + count.toNat + (i - count.toNat) = botId + i by omega]

/-! ## Sending -/

/-- A bot, by its place in the fleet, formats an order and hands it to `send_order`.
`arrival` is `none` where no connection takes it, else the clock of the gateway and the
sequence number that the order gets there. -/
structure Attempt where
  bot : Nat
  timeNs : Int
  side : String
  qty : Int
  price : Double
  arrival : Option (Int64 × Nat)

/-- An order that `format_order` has packed. -/
structure Packed where
  bot : Nat
  bytes : Bytes
  arrival : Option (Int64 × Nat)

/-- The order the engine gets of it. -/
def Packed.order (p : Packed) : Option (Order Double) :=
  p.arrival.map fun a => (OrderMessage.decode p.bytes).order a.1 a.2

/-- `send_order(format_order(…))`. The place of a bot whose task has ended holds `none`. -/
def send (bots : List (Option Bot)) (a : Attempt) : List (Option Bot) × List Packed :=
  match bots[a.bot]? with
  | some (some bot) =>
    match bot.formatOrder a.timeNs a.side a.qty a.price with
    | (bot, some bytes) => (bots.set a.bot (some bot), [⟨a.bot, bytes, a.arrival⟩])
    | (_, none) => (bots.set a.bot none, [])
  | _ => (bots, [])

/-- The orders packed by the fleet, in the order the bots take turns. -/
def sent (mm noise momentum : Int) (run : List Attempt) : List Packed :=
  outputs send ((fleet mm noise momentum).map some) run

/-- No two orders reach the engine with one `OrderId`. -/
def UniqueInEngine (orders : List Packed) : Prop :=
  ((orders.filterMap Packed.order).map Order.orderId).Nodup

/-! ## The ids a bot packs -/

theorem eq_before {bot : Bot} {orderId : Nat} (h : bot.orderIdCounter + 1 = orderId) :
    bot = Bot.before orderId := by
  obtain ⟨counter⟩ := bot
  simp only [Bot.before, Bot.mk.injEq]
  simp only at h
  omega

/-- What `format_order` has packed, the gateway reads with the id the counter came to. -/
theorem formatOrder_some {bot bot' : Bot} {timeNs qty : Int} {side : String} {price : Double}
    {bytes : Bytes} (h : bot.formatOrder timeNs side qty price = (bot', some bytes)) :
    ∃ orderId : Nat, bot'.orderIdCounter = orderId ∧ bot.orderIdCounter + 1 = orderId ∧
      (OrderMessage.decode bytes).orderId = UInt64.ofNat orderId := by
  have hbot : bot' = ⟨bot.orderIdCounter + 1⟩ := (congrArg Prod.fst h).symm
  have hbytes : (bot.formatOrder timeNs side qty price).2 = some bytes := congrArg Prod.snd h
  have hfields := hbytes
  simp only [Bot.formatOrder, Bot.generateOrderId, Option.bind_eq_bind,
    Option.bind_eq_some_iff] at hfields
  obtain ⟨_, hid, _, htime, _, hqty, -⟩ := hfields
  obtain ⟨orderId, hcounter, hidlt⟩ := packUnsigned_some hid
  obtain ⟨time, rfl, htimelt⟩ := packUnsigned_some htime
  obtain ⟨quantity, rfl, hqtylt⟩ := packUnsigned_some hqty
  have hbefore := eq_before hcounter
  obtain ⟨bytes', hpacked, -, hdecode⟩ :=
    decode_formatOrder (show orderId < 2 ^ 64 by omega) (show time < 2 ^ 64 by omega)
      (show quantity < 2 ^ 32 by omega) side price
  rw [← hbefore, hbytes] at hpacked
  cases hpacked
  exact ⟨orderId, by rw [hbot]; exact hcounter, hcounter, by rw [hdecode]⟩

/-- The id of the order with number `x.2` of the bot at place `x.1`. -/
def wireNumber (x : Nat × Nat) : Nat := (x.1 + 1) * 1000000 + x.2

/-- The counters stand where the orders packed so far have brought them. -/
structure Counted (orders : List Packed) (bots : List (Option Bot)) : Prop where
  counter : ∀ (i : Nat) (bot : Bot), bots[i]? = some (some bot) →
    bot.orderIdCounter = (wireNumber (i, orders.countP (·.bot = i)) : Int)
  ids : ∀ x ∈ numbered Packed.bot orders,
    (OrderMessage.decode x.1.bytes).orderId = UInt64.ofNat (wireNumber (tag Packed.bot x))

theorem counted_fleet (mm noise momentum : Int) :
    Counted [] ((fleet mm noise momentum).map some) where
  counter i bot h := by
    rw [List.getElem?_map, Option.map_eq_some_iff] at h
    obtain ⟨bot', hget, hbot⟩ := h
    cases hbot
    rw [spawn_getElem hget, newBot, wireNumber, List.countP_nil, Nat.add_comm 1 i]
    simp
  ids x h := by simp [numbered, numberedFrom] at h

/-- A bot that is replaced does not touch the others. -/
theorem Counted.set_none {orders : List Packed} {bots : List (Option Bot)} (h : Counted orders bots)
    (j : Nat) : Counted orders (bots.set j none) where
  counter i bot hget := by
    rw [List.getElem?_set] at hget
    split at hget
    · split at hget <;> simp at hget
    · exact h.counter i bot hget
  ids := h.ids

theorem Counted.packs {orders : List Packed} {bots : List (Option Bot)} (h : Counted orders bots)
    {j : Nat} {bot bot' : Bot} {bytes : Bytes} {arrival : Option (Int64 × Nat)} {orderId : Nat}
    (hbot : bots[j]? = some (some bot)) (hcounter : bot'.orderIdCounter = orderId)
    (hnext : bot.orderIdCounter + 1 = orderId)
    (hdecode : (OrderMessage.decode bytes).orderId = UInt64.ofNat orderId) :
    Counted (orders ++ [⟨j, bytes, arrival⟩]) (bots.set j (some bot')) where
  counter i other hget := by
    have hj := h.counter j bot hbot
    rw [List.getElem?_set] at hget
    split at hget
    · rename_i hji
      subst hji
      split at hget
      · cases hget
        rw [hcounter, List.countP_append]
        simp only [wireNumber, List.countP_singleton, decide_true, if_true] at hj ⊢
        omega
      · cases hget
    · rename_i hji
      rw [h.counter i other hget, List.countP_append]
      simp [hji]
  ids x hx := by
    have hj := h.counter j bot hbot
    rw [numbered_append, List.mem_append] at hx
    rcases hx with hx | hx
    · exact h.ids x hx
    · simp only [numberedFrom, List.mem_singleton] at hx
      subst hx
      have hid : orderId = wireNumber (j, orders.countP (·.bot = j) + 1) := by
        simp only [wireNumber] at hj ⊢
        omega
      rw [hdecode, hid]
      rfl

theorem Counted.send {orders : List Packed} {bots : List (Option Bot)} (h : Counted orders bots)
    (a : Attempt) : Counted (orders ++ (send bots a).2) (send bots a).1 := by
  unfold FleetIds.send
  split
  · rename_i bot hbot
    split
    · rename_i bot' bytes hformat
      obtain ⟨orderId, hcounter, hnext, hdecode⟩ := formatOrder_some hformat
      exact h.packs hbot hcounter hnext hdecode
    · rw [List.append_nil]
      exact h.set_none a.bot
  · rwa [List.append_nil]

theorem counted_run (mm noise momentum : Int) (run : List Attempt) :
    Counted (sent mm noise momentum run)
      (Runs.run FleetIds.send ((fleet mm noise momentum).map some) run).1 :=
  invariant_run (fun _ => Counted) (fun _ _ _ a h _ => h.send a) (counted_fleet mm noise momentum)
    (guarded_true _ _ _ _)

/-! ## Uniqueness -/

/-- The orders that reach the engine: the place of the bot, and which of its orders. -/
def reached (orders : List Packed) : List (Nat × Nat) :=
  ((numbered Packed.bot orders).filter (·.1.arrival.isSome)).map (tag Packed.bot)

theorem reached_nodup (orders : List Packed) : (reached orders).Nodup :=
  (numbered_nodup Packed.bot orders).sublist (List.filter_sublist.map _)

theorem mem_reached {orders : List Packed} (h : ∀ p ∈ orders, p.arrival ≠ none) {i k : Nat} :
    (i, k) ∈ reached orders ↔ 0 < k ∧ k ≤ orders.countP (·.bot = i) := by
  have hall : ∀ x ∈ numbered Packed.bot orders, x.1.arrival.isSome = true := by
    intro x hx
    have hmem : x.1 ∈ orders := by
      rw [← numbered_fst Packed.bot orders]
      exact List.mem_map_of_mem hx
    exact Option.isSome_iff_ne_none.mpr (h x.1 hmem)
  rw [reached, List.filter_eq_self.mpr hall, mem_numbered]

/-- What the engine has for ids. -/
theorem engine_ids {orders : List Packed} {bots : List (Option Bot)} (h : Counted orders bots) :
    (orders.filterMap Packed.order).map Order.orderId =
      (reached orders).map fun x => engineId (wireNumber x) := by
  have hids := h.ids
  rw [reached, List.map_map]
  conv_lhs => rw [← numbered_fst Packed.bot orders]
  generalize numbered Packed.bot orders = xs at hids
  induction xs with
  | nil => rfl
  | cons x xs ih =>
    have htail := ih fun y hy => hids y (List.mem_cons_of_mem _ hy)
    have hhead := hids x List.mem_cons_self
    rw [List.map_cons, List.filterMap_cons, List.filter_cons]
    cases harrival : x.1.arrival with
    | none => simpa [Packed.order, harrival] using htail
    | some a =>
      simp only [Packed.order, harrival, Option.map_some, Option.isSome_some, if_true,
        List.map_cons, htail, OrderMessage.order, hhead]
      rfl

theorem unique_iff {orders : List Packed} {bots : List (Option Bot)} (h : Counted orders bots) :
    UniqueInEngine orders ↔ ∀ x ∈ reached orders, ∀ y ∈ reached orders, x ≠ y →
      wireNumber x % 2 ^ 32 ≠ wireNumber y % 2 ^ 32 := by
  rw [UniqueInEngine, engine_ids h, List.nodup_map_iff_inj_on (reached_nodup orders)]
  simp only [engineId_eq]
  constructor
  · intro hinj x hx y hy hne heq
    exact hne (hinj x hx y hy heq)
  · intro hne x hx y hy heq
    by_contra hxy
    exact hne x hx y hy hxy heq

/-- How far the ids of the bot at place `j` start behind those of place `i`, going round. -/
def gap (i j : Nat) : Nat := (j - i) * 1000000 % 2 ^ 32

/-- With `count i` orders of each bot, the ids of a bot do not come back round to its
first, and those of any two bots that send end before the other's start. -/
def RangesApart (count : Nat → Nat) : Prop :=
  (∀ i, count i ≤ 2 ^ 32) ∧
    ∀ i j, i < j → count i ≠ 0 → count j ≠ 0 → count i ≤ gap i j ∧ count j ≤ 2 ^ 32 - gap i j

theorem rangesApart_iff (count : Nat → Nat) :
    RangesApart count ↔ ∀ i k j l, 0 < k → k ≤ count i → 0 < l → l ≤ count j → (i, k) ≠ (j, l) →
      wireNumber (i, k) % 2 ^ 32 ≠ wireNumber (j, l) % 2 ^ 32 := by
  have own := fun i => residues_own_iff (m := 2 ^ 32) ((i + 1) * 1000000) (count i)
  have apart := fun i j => residues_apart_iff (m := 2 ^ 32) (by decide) ((i + 1) * 1000000) (count i)
    ((j - i) * 1000000) (count j)
  have hstart : ∀ i j, i < j → (i + 1) * 1000000 + (j - i) * 1000000 = (j + 1) * 1000000 := by
    intro i j hij
    omega
  unfold wireNumber
  constructor
  · rintro ⟨hown, hpairs⟩
    -- Two orders of different bots, the one at the lower place first.
    have hlower : ∀ i k j l, i < j → 0 < k → k ≤ count i → 0 < l → l ≤ count j →
        ((i + 1) * 1000000 + k) % 2 ^ 32 ≠ ((j + 1) * 1000000 + l) % 2 ^ 32 := by
      intro i k j l hij hk hki hl hlj
      have hgap := hpairs i j hij (by omega) (by omega)
      have hne := (apart i j).mpr (Or.inr (Or.inr hgap)) k l hk hki hl hlj
      rwa [hstart i j hij] at hne
    intro i k j l hk hki hl hlj hne
    rcases Nat.lt_trichotomy i j with hij | rfl | hij
    · exact hlower i k j l hij hk hki hl hlj
    · exact (own i).mpr (Or.inr (hown i)) k l hk hki hl hlj fun hkl => hne (by rw [hkl])
    · exact (hlower j l i k hij hl hlj hk hki).symm
  · intro h
    constructor
    · intro i
      have hown := (own i).mp fun k l hk hki hl hli hne =>
        h i k i l hk hki hl hli fun heq => hne (congrArg Prod.snd heq)
      omega
    · intro i j hij hi hj
      have hcases := (apart i j).mp fun k l hk hki hl hlj => by
        rw [hstart i j hij]
        exact h i k j l hk hki hl hlj fun heq => by
          have := congrArg Prod.fst heq
          simp only at this
          omega
      unfold gap
      omega

/-- The number of orders that each bot packs. -/
def packedBy (orders : List Packed) (i : Nat) : Nat := orders.countP (·.bot = i)

theorem RangesApart.unique {orders : List Packed} {bots : List (Option Bot)}
    (hcounted : Counted orders bots) (h : RangesApart (packedBy orders)) :
    UniqueInEngine orders := by
  have hnumber : ∀ x ∈ reached orders, 0 < x.2 ∧ x.2 ≤ packedBy orders x.1 := by
    intro x hx
    have hmem := (List.filter_sublist.map (tag Packed.bot)).subset hx
    exact (mem_numbered Packed.bot).mp hmem
  rw [unique_iff hcounted]
  intro x hx y hy hne
  exact (rangesApart_iff _).mp h x.1 x.2 y.1 y.2 (hnumber x hx).1 (hnumber x hx).2
    (hnumber y hy).1 (hnumber y hy).2 hne

theorem UniqueInEngine.rangesApart {orders : List Packed} {bots : List (Option Bot)}
    (hcounted : Counted orders bots) (hall : ∀ p ∈ orders, p.arrival ≠ none)
    (h : UniqueInEngine orders) : RangesApart (packedBy orders) := by
  rw [unique_iff hcounted] at h
  rw [rangesApart_iff]
  intro i k j l hk hki hl hlj hne
  exact h (i, k) ((mem_reached hall).mpr ⟨hk, hki⟩) (j, l) ((mem_reached hall).mpr ⟨hl, hlj⟩) hne

/-- An order is packed of an attempt, with its arrival. -/
theorem sent_arrival {bots : List (Option Bot)} {run : List Attempt}
    (h : ∀ a ∈ run, a.arrival ≠ none) : ∀ p ∈ outputs FleetIds.send bots run, p.arrival ≠ none := by
  induction run generalizing bots with
  | nil => simp
  | cons a run ih =>
    intro p hp
    rw [outputs_cons, List.mem_append] at hp
    rcases hp with hp | hp
    · have harrival := h a List.mem_cons_self
      unfold FleetIds.send at hp
      split at hp
      · split at hp
        · rw [List.mem_singleton.mp hp]
          exact harrival
        · cases hp
      · cases hp
    · exact ih (fun b hb => h b (List.mem_cons_of_mem _ hb)) p hp

/-! ## Runs that pack every order -/

/-- The fields fit the format, and so would the id if the bot sent `total` orders. -/
def Attempt.Fits (bots total : Nat) (a : Attempt) : Prop :=
  a.bot < bots ∧ (0 ≤ a.timeNs ∧ a.timeNs < 2 ^ 64) ∧ (0 ≤ a.qty ∧ a.qty < 2 ^ 32) ∧
    wireNumber (a.bot, total) < 2 ^ 64

theorem formatOrder_packs {bot : Bot} {orderId : Nat} {timeNs qty : Int}
    (hnext : bot.orderIdCounter + 1 = orderId) (hid : orderId < 2 ^ 64)
    (htime : 0 ≤ timeNs ∧ timeNs < 2 ^ 64) (hqty : 0 ≤ qty ∧ qty < 2 ^ 32) (side : String)
    (price : Double) :
    ∃ bot' bytes, bot.formatOrder timeNs side qty price = (bot', some bytes) := by
  obtain ⟨time, rfl⟩ := Int.eq_ofNat_of_zero_le htime.1
  obtain ⟨quantity, rfl⟩ := Int.eq_ofNat_of_zero_le hqty.1
  have hbefore := eq_before hnext
  have hpacked := formatOrder_before hid (show time < 2 ^ 64 by omega)
    (show quantity < 2 ^ 32 by omega) side price
  rw [← hbefore] at hpacked
  exact ⟨_, _, Prod.ext rfl hpacked⟩

theorem send_packs {orders : List Packed} {bots : List (Option Bot)} {total : Nat} {a : Attempt}
    (h : Counted orders bots) (hlive : ∃ bot, bots[a.bot]? = some (some bot))
    (hfits : a.Fits bots.length total) (htotal : orders.length < total) :
    ∃ bot bytes, send bots a = (bots.set a.bot (some bot), [⟨a.bot, bytes, a.arrival⟩]) := by
  obtain ⟨bot, hbot⟩ := hlive
  obtain ⟨-, htime, hqty, hid⟩ := hfits
  have hcounter := h.counter a.bot bot hbot
  have hle : orders.countP (·.bot = a.bot) ≤ orders.length := List.countP_le_length
  simp only [wireNumber] at hid hcounter
  obtain ⟨orderId, hnext, hidlt⟩ :
      ∃ orderId : Nat, bot.orderIdCounter + 1 = orderId ∧ orderId < 2 ^ 64 :=
    ⟨(bot.orderIdCounter + 1).toNat, by omega, by omega⟩
  obtain ⟨bot', bytes, hformat⟩ := formatOrder_packs hnext hidlt htime hqty a.side a.price
  refine ⟨bot', bytes, ?_⟩
  simp only [send, hbot, hformat]

/-- Every attempt of such a run packs an order. -/
theorem packs_run {run : List Attempt} {orders : List Packed} {bots : List (Option Bot)}
    (h : Counted orders bots) (hlive : ∀ i < bots.length, ∃ bot, bots[i]? = some (some bot))
    (hfits : ∀ a ∈ run, a.Fits bots.length (orders.length + run.length)) :
    (outputs FleetIds.send bots run).map Packed.bot = run.map Attempt.bot := by
  induction run generalizing orders bots with
  | nil => rfl
  | cons a run ih =>
    have ha := hfits a List.mem_cons_self
    obtain ⟨bot, bytes, hsend⟩ := send_packs h (hlive a.bot ha.1) ha (by simp)
    have hcounted := h.send a
    rw [hsend] at hcounted
    have hlive' : ∀ i < (bots.set a.bot (some bot)).length,
        ∃ b, (bots.set a.bot (some bot))[i]? = some (some b) := by
      intro i hi
      rw [List.length_set] at hi
      rw [List.getElem?_set]
      split
      · exact ⟨bot, by simp [ha.1]⟩
      · exact hlive i hi
    have hrest := ih hcounted hlive' fun b hb => by
      have hb := hfits b (List.mem_cons_of_mem _ hb)
      rw [List.length_cons] at hb
      rw [List.length_set, List.length_append, List.length_singleton,
        show orders.length + 1 + run.length = orders.length + (run.length + 1) by omega]
      exact hb
    rw [outputs_cons, hsend, List.map_append, hrest]
    rfl

theorem fleet_length (mm noise momentum : Int) :
    (fleet mm noise momentum).length = mm.toNat + noise.toNat + momentum.toNat := by
  simp [fleet, spawn, Nat.add_assoc]

/-- What each bot has packed at the end of such a run. -/
theorem packedBy_run {mm noise momentum : Int} {run : List Attempt}
    (hfits : ∀ a ∈ run, a.Fits (mm.toNat + noise.toNat + momentum.toNat) run.length) (i : Nat) :
    packedBy (sent mm noise momentum run) i = run.countP (·.bot = i) := by
  have hlive : ∀ i < ((fleet mm noise momentum).map some).length,
      ∃ bot, ((fleet mm noise momentum).map some)[i]? = some (some bot) := by
    intro i hi
    rw [List.length_map] at hi
    exact ⟨(fleet mm noise momentum)[i], by rw [List.getElem?_map, List.getElem?_eq_getElem hi]; rfl⟩
  have hbots := packs_run (counted_fleet mm noise momentum) hlive fun a ha => by
    rw [List.length_map, fleet_length, List.length_nil, Nat.zero_add]
    exact hfits a ha
  have hcount := congrArg (List.countP fun j => decide (j = i)) hbots
  rw [List.countP_map, List.countP_map] at hcount
  exact hcount

/-- A million orders a bot leave the ranges apart, in any fleet of up to 4294 bots. -/
theorem rangesApart_million {count : Nat → Nat} (hcount : ∀ i, count i ≤ 1000000)
    (hfleet : ∀ i, 4294 ≤ i → count i = 0) : RangesApart count := by
  refine ⟨fun i => ?_, fun i j hij hi hj => ?_⟩
  · have := hcount i
    omega
  · have hj' : j < 4294 := by
      by_contra hge
      exact hj (hfleet j (by omega))
    have hci := hcount i
    have hcj := hcount j
    have hgap : gap i j = (j - i) * 1000000 := Nat.mod_eq_of_lt (by omega)
    omega

theorem send_length (bots : List (Option Bot)) (a : Attempt) :
    (send bots a).1.length = bots.length ∧ ∀ p ∈ (send bots a).2, p.bot < bots.length := by
  unfold send
  split
  · rename_i bot hbot
    have hlt : a.bot < bots.length := (List.getElem?_eq_some_iff.mp hbot).1
    split <;> simp [hlt]
  · simp

theorem outputs_bot_lt {bots : List (Option Bot)} {run : List Attempt} :
    ∀ p ∈ outputs FleetIds.send bots run, p.bot < bots.length := by
  induction run generalizing bots with
  | nil => simp
  | cons a run ih =>
    obtain ⟨hlength, hbots⟩ := send_length bots a
    intro p hp
    rw [outputs_cons, List.mem_append] at hp
    rcases hp with hp | hp
    · exact hbots p hp
    · rw [← hlength]
      exact ih p hp

/-- What the numbering of `main` is good for: the default fleet and every fleet of up to
4294 bots, as long as no bot goes past its million. -/
theorem million_orders_unique {mm noise momentum : Int} {run : List Attempt}
    (hfleet : mm.toNat + noise.toNat + momentum.toNat ≤ 4294)
    (hcount : ∀ i, packedBy (sent mm noise momentum run) i ≤ 1000000) :
    UniqueInEngine (sent mm noise momentum run) := by
  refine RangesApart.unique (counted_run mm noise momentum run)
    (rangesApart_million hcount fun i hi => ?_)
  apply List.countP_eq_zero.mpr
  intro p hp
  have hlt := outputs_bot_lt p hp
  rw [List.length_map, fleet_length] at hlt
  simp only [decide_eq_true_eq]
  omega

/-- **When the orders of a fleet keep their own ids in the engine.** For every fleet and
every run of it, whatever is lost on the way: no two orders reach the engine with one id
exactly where no two that arrive have numbers that agree modulo `2 ^ 32`. It is enough
that the ranges of the bots are apart, and where nothing is lost it is also needed. -/
theorem fleet_ids_unique_iff (mm noise momentum : Int) (run : List Attempt) :
    (UniqueInEngine (sent mm noise momentum run) ↔
      ∀ x ∈ reached (sent mm noise momentum run), ∀ y ∈ reached (sent mm noise momentum run),
        x ≠ y → wireNumber x % 2 ^ 32 ≠ wireNumber y % 2 ^ 32) ∧
    (RangesApart (packedBy (sent mm noise momentum run)) →
      UniqueInEngine (sent mm noise momentum run)) ∧
    ((∀ a ∈ run, a.arrival ≠ none) → UniqueInEngine (sent mm noise momentum run) →
      RangesApart (packedBy (sent mm noise momentum run))) := by
  have hcounted := counted_run mm noise momentum run
  refine ⟨unique_iff hcounted, RangesApart.unique hcounted, fun hall hunique => ?_⟩
  exact hunique.rangesApart hcounted (sent_arrival hall)

/-- A maker and a noise bot take turns. -/
def twoBots : List Attempt :=
  [⟨0, 7, "B", 5, ⟨0x4024000000000000⟩, some (8, 0)⟩,
    ⟨1, 8, "S", 5, ⟨0x4024000000000000⟩, some (9, 1)⟩,
    ⟨0, 9, "S", 6, ⟨0x4024000000000000⟩, some (9, 2)⟩]

theorem twoBots_apart : RangesApart (packedBy (sent 1 1 0 twoBots)) :=
  (fleet_ids_unique_iff 1 1 0 twoBots).2.2 (by decide)
    (by unfold UniqueInEngine; decide +kernel)

/-- The first bot of the default fleet sends `n` orders, then the second sends one. -/
def runInto (n : Nat) : List Attempt :=
  List.replicate n ⟨0, 7, "B", 5, ⟨0x4024000000000000⟩, some (8, 0)⟩ ++
    [⟨1, 8, "S", 5, ⟨0x4024000000000000⟩, some (9, 1)⟩]

theorem packedBy_runInto {n : Nat} (hn : n < 2 ^ 63) :
    packedBy (sent 50 100 20 (runInto n)) 0 = n ∧
      packedBy (sent 50 100 20 (runInto n)) 1 = 1 := by
  have hfits : ∀ a ∈ runInto n,
      a.Fits ((50 : Int).toNat + (100 : Int).toNat + (20 : Int).toNat) (runInto n).length := by
    intro a ha
    rw [runInto, List.length_append, List.length_replicate, List.length_singleton]
    rw [runInto, List.mem_append, List.mem_replicate, List.mem_singleton] at ha
    rcases ha with ⟨-, rfl⟩ | rfl
    · exact ⟨by decide, by decide, by decide, by simp only [wireNumber]; omega⟩
    · exact ⟨by decide, by decide, by decide, by simp only [wireNumber]; omega⟩
  rw [packedBy_run hfits, packedBy_run hfits, runInto, List.countP_append, List.countP_append,
    List.countP_replicate, List.countP_replicate]
  exact ⟨rfl, rfl⟩

/-- The order 1000001 of bot 1 and the order 1 of bot 2 are both 2000001. -/
theorem runInto_shares_id : ¬ UniqueInEngine (sent 50 100 20 (runInto 1000001)) := by
  intro hunique
  obtain ⟨hfirst, hsecond⟩ := packedBy_runInto (n := 1000001) (by decide)
  have harrival : ∀ a ∈ runInto 1000001, a.arrival ≠ none := by
    intro a ha
    rw [runInto, List.mem_append, List.mem_replicate, List.mem_singleton] at ha
    rcases ha with ⟨-, rfl⟩ | rfl <;> exact Option.some_ne_none _
  have happart := hunique.rangesApart (counted_run 50 100 20 _) (sent_arrival harrival)
  have hgap := (happart.2 0 1 (by decide) (by rw [hfirst]; decide) (by rw [hsecond]; decide)).1
  rw [hfirst] at hgap
  exact absurd hgap (by decide)

end TradePlat.FleetIds
