import TradePlat.Fleet.Connections

/-!
# The steps of a bot

What the tasks of a bot do, event by event, as far as its orders are concerned: an order
that is formatted is in the hand of the task of `run` until the writer has it, it is counted
as failed, or the task ends (`Moves`, `clientStep_moves`). What a step writes goes to
the connection of its writer, and a bot accounts for its orders from step to step
(`Keeps`).
-/

namespace TradePlat.Fleet
open Runs Gateway Binary64 FleetIds

/-- The order that is not written yet. -/
def Control.hand : Control → List Bytes
  | .openConnection order _ | .drainRequest order _ _ | .readResponse order _ _
  | .waitClosed order _ | .sleep order _ => order.toList
  | _ => []

/-- The number of orders under way. -/
def Control.busy : Control → Nat
  | .drainOrder _ => 1
  | control => control.hand.length

/-- The bot accounts for its orders: it has not begun, or it runs. -/
def Client.Counts (c : Client) : Prop :=
  c.control = .new ∨ (c.running = true ∧ c.control ≠ .ended)

/-- The orders that the bot accounts for. -/
def Client.total (c : Client) : Nat := c.ordersSent + c.failedMessages + c.control.busy

/-- One bot from step to step, in which it formats `n` orders. -/
structure Keeps (n : Nat) (c c' : Client) : Prop where
  writer : c'.writer = c.writer
  alive : c'.control ≠ .ended → c.control ≠ .ended
  counts : c'.Counts → c.Counts ∧ c'.total = c.total + n

/-- What a step of a bot does. -/
inductive Moves (host : String) (port : Int) (s : State) (b : Nat) :
    State × List Output → Prop where
  | stays : Moves host port s b (s, [])
  | quiet (c' : Client) (closes : Option Nat) : Keeps 0 (s.clients b) c' →
      c'.control.hand.Sublist (s.clients b).control.hand →
      Moves host port s b ((s.setClient b c').close closes, [])
  | formats (c' : Client) (closes : Option Nat) (order : Bytes) : Keeps 1 (s.clients b) c' →
      (s.clients b).control.hand = [] → c'.control.hand.Sublist [order] →
      order.length = msgSize →
      Moves host port s b ((s.setClient b c').close closes, [.formatted b order])
  | writes (c' : Client) (connection : Nat) (order frame : Bytes) (mask : Mask) :
      Keeps 0 (s.clients b) c' → (s.clients b).control.hand = [order] → c'.control.hand = [] →
      (s.clients b).control ≠ .ended → (s.clients b).writer = some connection →
      websocketBinaryFrame mask order = some frame →
      Moves host port s b
        ((s.setClient b c').write connection frame, [.wrote b connection order frame])
  | sends (c' : Client) (connection : Nat) (order frame : Bytes) (mask : Mask) :
      Keeps 1 (s.clients b) c' → (s.clients b).control.hand = [] → c'.control.hand = [] →
      (s.clients b).control ≠ .ended → (s.clients b).writer = some connection →
      websocketBinaryFrame mask order = some frame → order.length = msgSize →
      Moves host port s b ((s.setClient b c').write connection frame,
        [.formatted b order, .wrote b connection order frame])
  | opens (order : Option Bytes) (backoff : Rat) (urandom : Bytes) :
      (s.clients b).control = .openConnection order backoff → urandom.length = 16 →
      Moves host port s b (s.opened host port b (s.clients b) order backoff urandom)

section Moves
variable {host : String} {port : Int} {s : State} {b : Nat}

/-- A client that goes on alive, with what it accounts for. -/
theorem counts_of_alive {n : Nat} {c c' : Client} (halive : c.control ≠ .ended)
    (hnew : c'.control ≠ .new) (hrunning : c'.running = c.running)
    (htotal : c.running = true → c'.total = c.total + n) (h : c'.Counts) :
    c.Counts ∧ c'.total = c.total + n := by
  rcases h with h | ⟨h, -⟩
  · exact absurd h hnew
  · rw [hrunning] at h
    exact ⟨Or.inr ⟨h, halive⟩, htotal h⟩

theorem not_counts_of_ended {c : Client} (hended : c.control = .ended) : ¬ c.Counts := by
  rintro (h | ⟨-, h⟩)
  · rw [hended] at h
    cases h
  · exact h hended

theorem keeps_of_alive {n : Nat} {c c' : Client} (hwriter : c'.writer = c.writer)
    (halive : c.control ≠ .ended) (hnew : c'.control ≠ .new) (hrunning : c'.running = c.running)
    (htotal : c.running = true → c'.total = c.total + n) : Keeps n c c' where
  writer := hwriter
  alive _ := halive
  counts := counts_of_alive halive hnew hrunning htotal

theorem keeps_of_ended {n : Nat} {c c' : Client} (hwriter : c'.writer = c.writer)
    (hended : c'.control = .ended) : Keeps n c c' where
  writer := hwriter
  alive h := absurd hended h
  counts h := absurd h (not_counts_of_ended hended)

theorem loop_hand (c : Client) (order : Option Bytes) (backoff : Rat) :
    (c.loop order backoff).control.hand.Sublist order.toList := by
  unfold Client.loop
  split
  · exact List.Sublist.refl _
  · exact List.nil_sublist _

theorem loop_keeps {n : Nat} {c c' : Client} (order : Option Bytes) (backoff : Rat)
    (hwriter : c'.writer = c.writer) (halive : c.control ≠ .ended)
    (hrunning : c'.running = c.running) (hsent : c'.ordersSent = c.ordersSent)
    (hfailed : c'.failedMessages = c.failedMessages)
    (htotal : order.toList.length = c.control.busy + n) : Keeps n c (c'.loop order backoff) := by
  refine keeps_of_alive hwriter halive ?_ hrunning fun h => ?_
  · unfold Client.loop
    split <;> nofun
  · have hrun : c'.running = true := hrunning.trans h
    have hbusy : (c'.loop order backoff).control.busy = order.toList.length := by
      unfold Client.loop
      rw [if_pos hrun]
      rfl
    change c'.ordersSent + c'.failedMessages + _ = _
    rw [hbusy, htotal, hsent, hfailed, Client.total]
    omega

theorem retry_keeps {c : Client} {order : Option Bytes} (backoff : Rat) (halive : c.control ≠ .ended)
    (hbusy : c.control.busy = order.toList.length) : Keeps 0 c (c.retry order backoff) :=
  keeps_of_alive rfl halive nofun rfl fun _ => by
    change c.ordersSent + c.failedMessages + order.toList.length = _
    rw [← hbusy]
    rfl

/-- The `try` of `send_order`, for a client `c'` that holds the order. -/
theorem sendFrame_cases (s : State) (b : Nat) (c' : Client) (order : Bytes) (mask : Mask)
    (kept : Bool) :
    s.sendFrame b c' order mask kept = s.failed b c' ∨
      s.sendFrame b c' order mask kept =
        (s.setClient b { c' with control := .drainOrder order }, []) ∨
      ∃ connection frame, c'.writer = some connection ∧
        websocketBinaryFrame mask order = some frame ∧
        s.sendFrame b c' order mask kept =
          ((s.setClient b { c' with control := .drainOrder order }).write connection frame,
            [.wrote b connection order frame]) := by
  unfold State.sendFrame
  split
  · rename_i connection frame hwriter hframe
    dsimp only
    split
    · exact Or.inr (Or.inr ⟨connection, frame, hwriter, hframe, rfl⟩)
    · exact Or.inr (Or.inl rfl)
  · exact Or.inl rfl

/-- A client that goes on alive, with all that it accounts for. -/
theorem Moves.alive (c' : Client) (closes : Option Nat)
    (hwriter : c'.writer = (s.clients b).writer) (halive : (s.clients b).control ≠ .ended)
    (hnew : c'.control ≠ .new) (hrunning : c'.running = (s.clients b).running)
    (htotal : c'.total = (s.clients b).total)
    (hhand : c'.control.hand.Sublist (s.clients b).control.hand) :
    Moves host port s b ((s.setClient b c').close closes, []) :=
  .quiet c' closes (keeps_of_alive hwriter halive hnew hrunning fun _ => htotal) hhand

theorem Moves.ends (c' : Client) (hwriter : c'.writer = (s.clients b).writer)
    (hended : c'.control = .ended) : Moves host port s b (s.setClient b c', []) :=
  .quiet c' none (keeps_of_ended hwriter hended) (by rw [hended]; exact List.nil_sublist _)

/-- The loop of `connect` goes on with what is held. -/
theorem Moves.loops {order : Option Bytes} (backoff : Rat) (halive : (s.clients b).control ≠ .ended)
    (hbusy : (s.clients b).control.busy = order.toList.length)
    (hhand : (s.clients b).control.hand = order.toList) :
    Moves host port s b (s.setClient b ((s.clients b).loop order backoff), []) :=
  .quiet _ none (loop_keeps order backoff rfl halive rfl rfl rfl hbusy.symm)
    (hhand ▸ loop_hand _ order backoff)

theorem Moves.retries {order : Option Bytes} (backoff : Rat)
    (halive : (s.clients b).control ≠ .ended)
    (hbusy : (s.clients b).control.busy = order.toList.length)
    (hhand : (s.clients b).control.hand = order.toList) :
    Moves host port s b (s.setClient b ((s.clients b).retry order backoff), []) :=
  .quiet _ none (retry_keeps backoff halive hbusy) (hhand ▸ List.Sublist.refl _)

/-! ### The tasks of `run`, event by event -/

section Events
variable (host port s b)

theorem run_moves : Moves host port s b (clientStep host port s b .run) := by
  cases hc : (s.clients b).control with
  | new =>
    unfold clientStep
    simp only [hc]
    refine .quiet _ none ⟨rfl, fun _ => by rw [hc]; nofun, fun _ => ⟨Or.inl hc, ?_⟩⟩
      (List.nil_sublist _)
    rw [Client.total, Client.total, hc]
    rfl
  | _ =>
    unfold clientStep
    simp only [hc]
    exact .stays

theorem slept_moves : Moves host port s b (clientStep host port s b .slept) := by
  cases hc : (s.clients b).control with
  | stagger =>
    unfold clientStep
    simp only [hc]
    exact .loops 1 (by rw [hc]; nofun) (by rw [hc]; rfl) (by rw [hc]; rfl)
  | sleep order backoff =>
    unfold clientStep
    simp only [hc]
    exact .loops _ (by rw [hc]; nofun) (by rw [hc]; rfl) (by rw [hc]; rfl)
  | _ =>
    unfold clientStep
    simp only [hc]
    exact .stays

theorem opened_moves (urandom : Fin 16 → UInt8) :
    Moves host port s b (clientStep host port s b (.opened urandom)) := by
  cases hc : (s.clients b).control with
  | openConnection order backoff =>
    unfold clientStep
    simp only [hc]
    exact .opens order backoff _ hc List.length_ofFn
  | _ =>
    unfold clientStep
    simp only [hc]
    exact .stays

/-- What was written is on its way: the request, or an order that counts as sent now. -/
theorem drained_moves : Moves host port s b (clientStep host port s b .drained) := by
  cases hc : (s.clients b).control with
  | drainRequest order backoff key =>
    unfold clientStep
    simp only [hc]
    refine .alive _ none rfl (by rw [hc]; nofun) nofun rfl ?_ ?_
    · rw [Client.total, Client.total, hc]
      rfl
    · rw [hc]
      exact List.Sublist.refl _
  | drainOrder order =>
    unfold clientStep
    simp only [hc]
    refine .alive _ none rfl (by rw [hc]; nofun) nofun rfl ?_ (List.nil_sublist _)
    rw [Client.total, Client.total, hc]
    exact Nat.add_right_comm _ 1 _
  | _ =>
    unfold clientStep
    simp only [hc]
    exact .stays

variable {s b} in
/-- The order that `connect` was called with is sent. -/
theorem heldOrder_moves {order : Bytes} {backoff : Rat} {key : Bytes} (mask : Mask) (kept : Bool)
    (hc : (s.clients b).control = .readResponse (some order) backoff key) :
    Moves host port s b (s.sendFrame b { s.clients b with
      readLoops := (s.clients b).readLoops + 1, control := .botLogic } order mask kept) := by
  have halive : (s.clients b).control ≠ .ended := by rw [hc]; nofun
  rcases sendFrame_cases s b { s.clients b with
      readLoops := (s.clients b).readLoops + 1, control := .botLogic } order mask kept with
    heq | heq | ⟨connection, frame, hwriter, hframe, heq⟩
  · rw [heq]
    refine .alive _ (s.clients b).writer rfl halive nofun rfl ?_ (List.nil_sublist _)
    rw [Client.total, Client.total, hc]
    exact Nat.add_right_comm _ _ _
  · rw [heq]
    refine .alive _ none rfl halive nofun rfl ?_ (List.nil_sublist _)
    rw [Client.total, Client.total, hc]
    rfl
  · rw [heq]
    refine .writes _ connection order frame mask (keeps_of_alive rfl halive nofun rfl fun _ => ?_)
      (by rw [hc]; rfl) rfl halive hwriter hframe
    rw [Client.total, Client.total, hc]
    rfl

theorem response_moves (response : Bytes) (mask : Mask) (kept : Bool) :
    Moves host port s b (clientStep host port s b (.response response mask kept)) := by
  cases hc : (s.clients b).control with
  | readResponse order backoff key =>
    have halive : (s.clients b).control ≠ .ended := by rw [hc]; nofun
    unfold clientStep
    simp only [hc]
    split
    · cases order with
      | none =>
        refine .alive _ none rfl halive nofun rfl ?_ (List.nil_sublist _)
        rw [Client.total, Client.total, hc]
        rfl
      | some order => exact heldOrder_moves host port mask kept hc
    · refine .alive _ (s.clients b).writer rfl halive nofun rfl ?_ ?_
      · rw [Client.total, Client.total, hc]
        rfl
      · rw [hc]
        exact List.Sublist.refl _
  | _ =>
    unfold clientStep
    simp only [hc]
    exact .stays

theorem closed_moves : Moves host port s b (clientStep host port s b .closed) := by
  cases hc : (s.clients b).control with
  | waitClosed order backoff =>
    unfold clientStep
    simp only [hc]
    exact .retries backoff (by rw [hc]; nofun) (by rw [hc]; rfl) (by rw [hc]; rfl)
  | _ =>
    unfold clientStep
    simp only [hc]
    exact .stays

/-- An error in `connect` keeps the order for the next attempt, one in `send_order` counts
it as failed. -/
theorem fail_moves : Moves host port s b (clientStep host port s b .fail) := by
  cases hc : (s.clients b).control with
  | openConnection order backoff =>
    unfold clientStep
    simp only [hc]
    exact .retries backoff (by rw [hc]; nofun) (by rw [hc]; rfl) (by rw [hc]; rfl)
  | drainRequest order backoff key =>
    unfold clientStep
    simp only [hc]
    exact .retries backoff (by rw [hc]; nofun) (by rw [hc]; rfl) (by rw [hc]; rfl)
  | readResponse order backoff key =>
    unfold clientStep
    simp only [hc]
    exact .retries backoff (by rw [hc]; nofun) (by rw [hc]; rfl) (by rw [hc]; rfl)
  | waitClosed order backoff =>
    unfold clientStep
    simp only [hc]
    exact .retries backoff (by rw [hc]; nofun) (by rw [hc]; rfl) (by rw [hc]; rfl)
  | drainOrder order =>
    unfold clientStep
    simp only [hc]
    refine .alive _ (s.clients b).writer rfl (by rw [hc]; nofun) nofun rfl ?_ (List.nil_sublist _)
    rw [Client.total, Client.total, hc]
    rfl
  | _ =>
    unfold clientStep
    simp only [hc]
    exact .stays

variable {s b} in
/-- An order that was just formatted is sent on the open connection. -/
theorem newOrder_moves {bot : Bot} {order : Bytes} (mask : Mask)
    (hc : (s.clients b).control = .botLogic) (hlen : order.length = msgSize) :
    Moves host port s b ((s.sendFrame b { s.clients b with bot := bot } order mask false).1,
      .formatted b order :: (s.sendFrame b { s.clients b with bot := bot } order mask false).2) := by
  have halive : (s.clients b).control ≠ .ended := by rw [hc]; nofun
  have hhand : (s.clients b).control.hand = [] := by rw [hc]; rfl
  rcases sendFrame_cases s b { s.clients b with bot := bot } order mask false with
    heq | heq | ⟨connection, frame, hwriter, hframe, heq⟩
  · rw [heq]
    refine .formats _ (s.clients b).writer order
      (keeps_of_alive rfl halive nofun rfl fun _ => ?_) hhand (List.nil_sublist _) hlen
    rw [Client.total, Client.total, hc]
    exact (Nat.add_assoc _ _ _).symm
  · rw [heq]
    refine .formats _ none order (keeps_of_alive rfl halive nofun rfl fun _ => ?_) hhand
      (List.nil_sublist _) hlen
    rw [Client.total, Client.total, hc]
    rfl
  · rw [heq]
    refine .sends _ connection order frame mask
      (keeps_of_alive rfl halive nofun rfl fun _ => ?_) hhand rfl halive hwriter hframe hlen
    rw [Client.total, Client.total, hc]
    rfl

theorem sendOrder_moves (timeNs : Int) (side : String) (qty : Int) (price : Double) (mask : Mask) :
    Moves host port s b (clientStep host port s b (.sendOrder timeNs side qty price mask)) := by
  cases hc : (s.clients b).control with
  | botLogic =>
    unfold clientStep
    simp only [hc]
    split
    · exact .ends _ rfl rfl
    · rename_i bot order hformat
      have hlen := formatOrder_length hformat
      split
      · exact newOrder_moves host port mask hc hlen
      · exact .formats _ none order
          (loop_keeps (some order) 1 rfl (by rw [hc]; nofun) rfl rfl rfl (by rw [hc]; rfl))
          (by rw [hc]; rfl) (loop_hand _ (some order) 1) hlen
  | _ =>
    unfold clientStep
    simp only [hc]
    exact .stays

theorem finish_moves : Moves host port s b (clientStep host port s b .finish) := by
  cases hc : (s.clients b).control with
  | botLogic =>
    unfold clientStep
    simp only [hc]
    exact .ends _ rfl rfl
  | _ =>
    unfold clientStep
    simp only [hc]
    exact .stays

/-- The other tasks of the bot leave that of `run` where it is. -/
theorem read_moves (data : Bytes) : Moves host port s b (clientStep host port s b (.read data)) := by
  unfold clientStep
  dsimp only
  split
  · exact .stays
  · split
    · exact .quiet _ (s.clients b).writer ⟨rfl, id, fun h => ⟨h, rfl⟩⟩ (List.Sublist.refl _)
    · exact .quiet _ none ⟨rfl, id, fun h => ⟨h, rfl⟩⟩ (List.Sublist.refl _)

theorem disconnect_moves : Moves host port s b (clientStep host port s b .disconnect) := by
  unfold clientStep
  dsimp only
  refine .quiet _ (s.clients b).writer ⟨rfl, id, fun h => ⟨Or.inl ?_, rfl⟩⟩ (List.Sublist.refl _)
  rcases h with h | ⟨h, -⟩
  · exact h
  · cases h

theorem clientStep_moves (event : Event) :
    Moves host port s b (clientStep host port s b event) := by
  cases event with
  | run => exact run_moves host port s b
  | slept => exact slept_moves host port s b
  | opened urandom => exact opened_moves host port s b urandom
  | drained => exact drained_moves host port s b
  | response response mask kept => exact response_moves host port s b response mask kept
  | closed => exact closed_moves host port s b
  | fail => exact fail_moves host port s b
  | raises => exact .ends _ rfl rfl
  | sendOrder timeNs side qty price mask =>
    exact sendOrder_moves host port s b timeNs side qty price mask
  | finish => exact finish_moves host port s b
  | read data => exact read_moves host port s b data
  | disconnect => exact disconnect_moves host port s b

end Events

end Moves

end TradePlat.Fleet
