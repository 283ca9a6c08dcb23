import TradePlat.Scorer.Exchange

/-!
# Skipped prices

An exchange skips a resting order when it trades the incoming order at a price
that is worse by more than `PRICE_EPSILON` while the better order rests. The
scorer compares neighbouring events that share one order. So it reports a skip
where the order that skipped goes on to trade with the skipped one
(`skip_reported`): all trades between the two are trades of that order, and
somewhere its price improves. It does not report a skip where another order
takes the skipped one, nor one where the price creeps back in steps within
`PRICE_EPSILON` (`unreported_skips`).
-/

namespace TradePlat.Exchange
open Runs Binary64 Scorer

/-! ## Skips and what follows them -/

/-- Trading with `maker`, the incoming order `taker` gets a worse price than that
of `skipped`, which rests on the same side. -/
def Skips (s : State) (maker : Nat) (taker skipped : Order) : Prop :=
  ∃ p ∈ s.parties maker, p.1 = taker ∧ skipped ∈ s.resting ∧ skipped.isBuy = p.2.isBuy ∧
    ImprovesClearly taker.isBuy p.2.price skipped.price

instance (s : State) (maker : Nat) (taker skipped : Order) :
    Decidable (Skips s maker taker skipped) := inferInstanceAs (Decidable (∃ p ∈ _, _))

/-- The price improves for the side by no more than `PRICE_EPSILON`. -/
def Creeps (isBuy : Bool) (prev e : TradeEvent) : Prop :=
  Improves isBuy prev.price e.price ∧ ¬ ImprovesClearly isBuy prev.price e.price

instance (isBuy : Bool) (prev e : TradeEvent) : Decidable (Creeps isBuy prev e) :=
  inferInstanceAs (Decidable (_ ∧ _))

variable {past : List Action} {s : State}

theorem submitted_mono {x : Nat} (hx : x ∈ (submitted past).map Order.orderId)
    (more : List Action) : x ∈ (submitted (past ++ more)).map Order.orderId := by
  rw [submitted_append, List.map_append]
  exact List.mem_append_left _ hx

/-- A submitted order is none of the earlier ones. -/
theorem incoming_new {order : Order} (hok : Allowed past s (.submit order)) {x y : Nat}
    (hx : x ∈ (submitted past).map Order.orderId) (hy : y ∈ (submitted past).map Order.orderId) :
    ∀ t ∈ (step s (.submit order)).1.incoming, t.orderId ≠ x ∧ t.orderId ≠ y := by
  intro t ht
  obtain rfl : order = t := by simpa [step] using ht
  exact ⟨fun heq => hok.2.2.2.2 (heq ▸ hx), fun heq => hok.2.2.2.2 (heq ▸ hy)⟩

/-- Two orders that are not incoming do not trade with each other any more. -/
theorem not_both {x y : Nat} (hx : x ∈ (submitted past).map Order.orderId)
    (hy : y ∈ (submitted past).map Order.orderId)
    (hin : ∀ t ∈ s.incoming, t.orderId ≠ x ∧ t.orderId ≠ y) {actions : List Action}
    (h : Guarded step Allowed past s actions) :
    ∀ e ∈ outputs step s actions, ∀ b, ¬ (e.party b = x ∧ e.party (!b) = y) := by
  induction actions generalizing past s with
  | nil => simp
  | cons a actions ih =>
    obtain ⟨hok, h⟩ := h
    have hrest := fun hin' => ih (submitted_mono hx [a]) (submitted_mono hy [a]) hin' h
    intro e he b
    rw [outputs_cons] at he
    cases a with
    | submit order => exact hrest (incoming_new hok hx hy) e he b
    | rest => exact hrest (by simp [step, State.settle]) e he b
    | cancel orderId => exact hrest hin e he b
    | trade maker terms =>
      obtain ⟨⟨taker, r⟩, hp, -⟩ := hok
      obtain ⟨htaker, -, -⟩ := parties_eq hp
      obtain ⟨hnx, hny⟩ := hin taker htaker
      rw [step_trade hp] at he hrest
      rcases List.mem_append.mp he with he | he
      · have hbet := event_between (s.lastMatchId + 1) (show taker.Version taker from rfl)
          (show r.Version r from rfl) terms
        rw [List.mem_singleton.mp he]
        rintro ⟨hb, hb'⟩
        by_cases hside : b = taker.isBuy
        · rw [hside, hbet.takerId] at hb
          exact hnx hb
        · rw [show (!b) = taker.isBuy by cases b <;> simp_all, hbet.takerId] at hb'
          exact hny hb'
      · refine hrest (fun t ht => ?_) e he b
        rw [(fill_version ht).orderId]
        exact ⟨hnx, hny⟩

/-- Up to a trade between `taker` and an order that rested, all trades are trades
of `taker`. -/
theorem sweep_between {taker : Order} {y : Nat}
    (hx : taker.orderId ∈ (submitted past).map Order.orderId)
    (hy : y ∈ (submitted past).map Order.orderId)
    (hk : Known past s) (hin : ∀ t ∈ s.incoming, taker.Version t) {actions : List Action}
    (h : Guarded step Allowed past s actions) {mid post : List TradeEvent} {g : TradeEvent}
    (hout : outputs step s actions = mid ++ g :: post)
    (hg : g.party taker.isBuy = taker.orderId ∧ g.party (!taker.isBuy) = y) :
    ∀ e ∈ mid ++ [g], ∃ maker ∈ submitted (past ++ actions), Between taker maker e := by
  induction actions generalizing past s mid with
  | nil => simp at hout
  | cons a actions ih =>
    obtain ⟨hok, h⟩ := h
    have hk' := hk.next hok
    have hx' := submitted_mono hx [a]
    have hy' := submitted_mono hy [a]
    -- an incoming order that left does not come back
    have hgone : (∀ t ∈ (step s a).1.incoming, t.orderId ≠ taker.orderId ∧ t.orderId ≠ y) →
        g ∉ outputs step (step s a).1 actions := fun hin' hmem =>
      not_both hx' hy' hin' h g hmem _ hg
    rw [outputs_cons] at hout
    rw [List.append_cons past a actions]
    have hrest := fun hin' (mid : List TradeEvent)
      (hout' : outputs step (step s a).1 actions = mid ++ g :: post) =>
      ih hx' hy' hk' hin' h hout'
    cases a with
    | submit order =>
      refine absurd ?_ (hgone (incoming_new hok hx hy))
      rw [show outputs step (step s (.submit order)).1 actions = mid ++ g :: post from hout]
      simp
    | rest =>
      refine absurd ?_ (hgone (by simp [step, State.settle]))
      rw [show outputs step (step s .rest).1 actions = mid ++ g :: post from hout]
      simp
    | cancel orderId => exact hrest hin mid hout
    | trade maker terms =>
      obtain ⟨⟨t, r⟩, hp, -⟩ := hok
      obtain ⟨htaker, hmem, -⟩ := parties_eq hp
      have hv := hin t htaker
      obtain ⟨o, ho, hvr⟩ := hk.known r (by simp [State.orders, hmem])
      have hfirst : ∃ m ∈ submitted (past ++ [.trade maker terms] ++ actions),
          Between taker m (event (s.lastMatchId + 1) t r terms) :=
        ⟨o, by simp [ho], event_between _ hv hvr terms⟩
      rw [step_trade hp] at hout hrest
      cases mid with
      | nil =>
        have heq := (List.cons.inj hout).1
        rw [← heq]
        simpa using hfirst
      | cons e mid =>
        obtain ⟨heq, hout⟩ := List.cons.inj hout
        rw [← heq, List.cons_append, List.forall_mem_cons]
        refine ⟨hfirst, hrest (fun t' ht' => ?_) mid hout⟩
        exact hv.trans (fill_version ht')

/-! ## Skips that are reported -/

/-- Where the price improves from the first event to the last, it improves
between two neighbours. -/
theorem improves_somewhere {b : Bool} {f g : TradeEvent} {mid : List TradeEvent}
    (hfin : ∀ e ∈ f :: (mid ++ [g]), e.price.IsFinite)
    (h : (f :: (mid ++ [g])).IsChain fun x y => ¬ Improves b x.price y.price) :
    ¬ Improves b f.price g.price := by
  have hrank : (f :: (mid ++ [g])).IsChain
      fun x y : TradeEvent => rank b y.price ≤ rank b x.price :=
    h.imp_of_mem_imp fun x y hx hy hxy => by
      rw [improves_iff (hfin x hx) (hfin y hy)] at hxy
      exact Int.not_lt.mp hxy
  have htrans : Trans (fun x y : TradeEvent => rank b y.price ≤ rank b x.price)
      (fun x y : TradeEvent => rank b y.price ≤ rank b x.price)
      (fun x y : TradeEvent => rank b y.price ≤ rank b x.price) :=
    ⟨fun hxy hyz => Int.le_trans hyz hxy⟩
  have hlast := (List.pairwise_cons.mp (List.isChain_iff_pairwise.mp hrank)).1 g (by simp)
  rw [improves_iff (hfin f (by simp)) (hfin g (by simp))]
  exact Int.not_lt.mpr hlast

/-- One order that trades on, at prices that improve and do not creep, is out of
priority somewhere. -/
theorem not_inPriority (hk : Known past s) {taker : Order} {f g : TradeEvent}
    {mid : List TradeEvent}
    (hall : ∀ e ∈ f :: (mid ++ [g]), ∃ m ∈ submitted past, Between taker m e)
    (himp : Improves taker.isBuy f.price g.price)
    (hcreep : (f :: (mid ++ [g])).IsChain fun x y => ¬ Creeps taker.isBuy x y) :
    ¬ (f :: (mid ++ [g])).IsChain TradeEvent.InPriority := by
  intro hprice
  have hfin : ∀ e ∈ f :: (mid ++ [g]), e.price.IsFinite := by
    intro e he
    obtain ⟨m, hm, hb⟩ := hall e he
    rw [hb.price]
    exact (hk.proper m hm).2.1
  refine improves_somewhere hfin ?_ himp
  rw [List.isChain_iff_forall_rel_of_append_cons_cons] at hprice hcreep ⊢
  intro x y l₁ l₂ hl hxy
  have hx : x ∈ f :: (mid ++ [g]) := by simp [hl]
  have hy : y ∈ f :: (mid ++ [g]) := by simp [hl]
  obtain ⟨m, hm, hb⟩ := hall x hx
  obtain ⟨m', hm', hb'⟩ := hall y hy
  have hclear : ImprovesClearly taker.isBuy x.price y.price :=
    not_not.mp fun hnot => hcreep hl ⟨hxy, hnot⟩
  refine inPriority_iff.mp (hprice hl) taker.isBuy (by rw [hb.takerId, hb'.takerId]) ?_ hclear
  -- one maker would trade at one price
  rw [hb.makerId, hb'.makerId]
  intro hid
  rw [improves_iff (hfin x hx) (hfin y hy), hb.price, hb'.price,
    hk.same_order hm hm' hid.symm] at hxy
  omega

/-- **A skipped price is reported where the order that skipped it comes back to it.**
`f` is the trade that skips; `g` is a later trade of the same incoming order, with
the skipped order; and from `f` to `g` the price does not creep. -/
theorem skip_reported (first : Nat) (before after : List Action) (maker : Nat) (terms : Terms)
    (taker skipped : Order) (f g : TradeEvent) (mid post : List TradeEvent)
    (h : Guarded step Allowed [] (.start first) (before ++ .trade maker terms :: after))
    (hskip : Skips (run step (.start first) before).1 maker taker skipped)
    (hstream : outputs step (.start first) (before ++ .trade maker terms :: after) =
      outputs step (.start first) before ++ f :: (mid ++ g :: post))
    (hback : g.party taker.isBuy = taker.orderId ∧ g.party (!taker.isBuy) = skipped.orderId)
    (hcreep : (f :: (mid ++ [g])).IsChain fun x y => ¬ Creeps taker.isBuy x y)
    (windowSeconds : Rat) (stream : List (Rat × TradeEvent))
    (hevents : stream.map Prod.snd =
      outputs step (.start first) (before ++ .trade maker terms :: after)) :
    ∃ violation, (ContestantState.new windowSeconds).feed stream = some violation ∧
      violation.isPricePriority := by
  obtain ⟨hk, htold⟩ := sound_run h
  obtain ⟨⟨t, r⟩, hp, htaker, hmem, -, hclear⟩ := hskip
  obtain rfl : taker = t := htaker.symm
  obtain ⟨hin, hmaker, -⟩ := parties_eq hp
  obtain ⟨hbefore, hok, hafter⟩ := (guarded_append _ _ _ _ _ _).mp h
  have hk₀ := (sound_run hbefore).1
  have hk₁ := hk₀.next hok
  have hnext := step_trade hp terms
  rw [hnext] at hk₁ hafter
  -- the trade that skips, and the stream behind it
  have hsplit := hstream
  rw [outputs_append, outputs_cons, hnext, List.append_cancel_left_eq] at hsplit
  obtain ⟨hf, hout⟩ := List.cons.inj hsplit
  have hids : ∀ o ∈ (run step (.start first) before).1.orders,
      o.orderId ∈ (submitted (before ++ [.trade maker terms])).map Order.orderId := by
    intro o ho
    exact submitted_mono (hk₀.orderId_mem ho) _
  have hsweep := sweep_between (hids taker (by simp [State.orders, hin]))
    (hids skipped (by simp [State.orders, hmem])) hk₁ (fun t ht => fill_version ht) hafter hout
    hback
  rw [List.append_assoc, List.singleton_append] at hsweep
  obtain ⟨o, ho, hv⟩ := hk₀.known r (by simp [State.orders, hmaker])
  have hfirst : Between taker o f :=
    hf ▸ event_between _ (show taker.Version taker from rfl) hv terms
  have hall : ∀ e ∈ f :: (mid ++ [g]), ∃ m ∈ submitted (before ++ .trade maker terms :: after),
      Between taker m e := List.forall_mem_cons.mpr ⟨⟨o, by simp [ho], hfirst⟩, hsweep⟩
  -- from the one price to the other
  have hfprice : f.price = r.price := by rw [hfirst.price, hv.price]
  have hgprice : g.price = skipped.price := by
    obtain ⟨m, hm, hb⟩ := hsweep g (by simp)
    obtain ⟨o', ho', hv'⟩ := hk₀.known skipped (by simp [State.orders, hmem])
    have hid : m.orderId = o'.orderId := by rw [← hb.makerId, hback.2, hv'.orderId]
    rw [hb.price, hv'.price, hk.same_order hm (by simp [ho']) hid]
  have hrfin : r.price.IsFinite := by
    rw [hv.price]
    exact (hk₀.proper o ho).2.1
  have himp : Improves taker.isBuy f.price g.price := by
    rw [hfprice, hgprice]
    exact hclear.improves hrfin
  rw [← hevents] at htold
  refine ContestantState.feed_reports
    (fun entry hentry => htold.wellFormed _ (List.mem_map_of_mem hentry)) htold.sequence
    fun hprice => not_inPriority hk hall himp hcreep ?_
  rw [hevents, hstream, show f :: (mid ++ g :: post) = (f :: (mid ++ [g])) ++ post by simp]
    at hprice
  exact hprice.right_of_append.left_of_append

/-! ## Runs -/

/-- Asks at 10, 10.0000000006, 10.0000000012 and 10.5, and a buy order at 11. -/
def fourAsks : List Action :=
  [.submit ⟨201, false, ⟨0x4024000000000000⟩, 5⟩, .submit ⟨202, false, ⟨0x402400000005276A⟩, 5⟩,
    .submit ⟨203, false, ⟨0x40240000000A4ED4⟩, 5⟩, .submit ⟨204, false, ⟨0x4025000000000000⟩, 5⟩,
    .submit ⟨101, true, ⟨0x4026000000000000⟩, 20⟩]

def bestAsk : Order := ⟨201, false, ⟨0x4024000000000000⟩, 5⟩
def sweeper : Order := ⟨101, true, ⟨0x4026000000000000⟩, 20⟩

/-- A trade of five. -/
def five (t2Ns : Nat) : Terms := ⟨5, 1, 2, t2Ns⟩

/-- The events, read by the scorer at time zero. -/
def read (actions : List Action) : List (Rat × TradeEvent) :=
  (outputs step (.start 0) actions).map fun e => (0, e)

theorem read_events (actions : List Action) :
    (read actions).map Prod.snd = outputs step (.start 0) actions := by
  unfold read
  rw [List.map_map]
  exact List.map_id _

/-- The buy order takes the ask at 10.5 first and the one at 10 next. -/
theorem comesBack_reported : ∃ violation,
    (ContestantState.new 1).feed
        (read (fourAsks ++ .trade 204 (five 3) :: [.trade 201 (five 4)])) = some violation ∧
      violation.isPricePriority :=
  skip_reported 0 fourAsks [.trade 201 (five 4)] 204 (five 3) sweeper bestAsk
    ⟨1, 101, 204, 1, 2, 3, ⟨0x4025000000000000⟩, 5⟩ ⟨2, 101, 201, 1, 2, 4, ⟨0x4024000000000000⟩, 5⟩
    [] [] (by decide) (by decide +kernel) (by decide) (by decide)
    (List.isChain_cons_cons.mpr ⟨by decide +kernel, List.isChain_singleton _⟩) 1 _ (read_events _)

/-- Every skip of an order that trades later is reported. -/
def SkipsAreReported : Prop :=
  ∀ (first : Nat) (before after : List Action) (maker : Nat) (terms : Terms)
    (taker skipped : Order),
    Guarded step Allowed [] (.start first) (before ++ .trade maker terms :: after) →
    Skips (run step (.start first) before).1 maker taker skipped →
    (∃ g ∈ outputs step (run step (.start first) (before ++ [.trade maker terms])).1 after,
      ∃ b, g.party b = skipped.orderId) →
    ∀ (windowSeconds : Rat) (stream : List (Rat × TradeEvent)),
      stream.map Prod.snd =
        outputs step (.start first) (before ++ .trade maker terms :: after) →
      ∃ violation, (ContestantState.new windowSeconds).feed stream = some violation ∧
        violation.isPricePriority

/-- Another buy order takes the skipped ask. -/
def elsewhere : List Action :=
  [.submit ⟨102, true, ⟨0x4026000000000000⟩, 5⟩, .trade 201 (five 4)]

/-- **Skips that are not reported**: one where another order takes the skipped ask,
and one where the buy order comes back to it in two steps within `PRICE_EPSILON`. -/
theorem unreported_skips : ¬ SkipsAreReported ∧
    (Guarded step Allowed [] (.start 0)
        (fourAsks ++ .trade 203 (five 3) :: [.trade 202 (five 4), .trade 201 (five 5)]) ∧
      Skips (run step (.start 0) fourAsks).1 203 sweeper bestAsk ∧
      (ContestantState.new 1).feed (read
        (fourAsks ++ .trade 203 (five 3) :: [.trade 202 (five 4), .trade 201 (five 5)])) =
          none) := by
  constructor
  · intro h
    have hnone : (ContestantState.new 1).feed
        (read (fourAsks ++ .trade 204 (five 3) :: elsewhere)) = none := by decide +kernel
    obtain ⟨violation, hv, -⟩ := h 0 fourAsks elsewhere 204 (five 3) sweeper bestAsk
      (by decide) (by decide +kernel) (by decide) 1 _ (read_events _)
    rw [hnone] at hv
    cases hv
  · decide +kernel

end TradePlat.Exchange
