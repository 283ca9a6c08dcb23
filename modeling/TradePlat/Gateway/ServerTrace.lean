import TradePlat.Gateway.Server

/-!
# The trace of the server loop

What arrived on a connection, what was read of it and what was done for it, beside what is
done for a connection by itself (`actionsOf`), which does not depend on how its bytes were
cut into reads (`actionsOf_flatten`). Only the other side opens connections and sends bytes:
the server thread lets nothing in (`step_nothingIn`).
-/

namespace TradePlat.TCPServer
open Runs Gateway

/-! ## Traces -/

/-- The bytes that arrived on a connection. -/
def arrivedOn (c : Nat) (out : List Output) : Bytes :=
  out.flatMap fun
    | .arrived c' bytes => if c' = c then bytes else []
    | .handled _ _ _ => []

/-- What the reads of a connection returned. -/
def readOn (c : Nat) (out : List Output) : List Bytes :=
  out.filterMap fun
    | .handled c' bytes _ => if c' = c then some bytes else none
    | .arrived _ _ => none

/-- What the gateway did for a connection. -/
def actionsOn (c : Nat) (out : List Output) : List Action :=
  out.flatMap fun
    | .handled c' _ actions => if c' = c then actions else []
    | .arrived _ _ => []

section Traces
variable (c c' : Nat) (out more : List Output) (bytes : Bytes) (actions : List Action)

@[simp] theorem arrivedOn_append : arrivedOn c (out ++ more) = arrivedOn c out ++ arrivedOn c more :=
  List.flatMap_append

@[simp] theorem readOn_append : readOn c (out ++ more) = readOn c out ++ readOn c more :=
  List.filterMap_append

@[simp] theorem actionsOn_append : actionsOn c (out ++ more) = actionsOn c out ++ actionsOn c more :=
  List.flatMap_append

@[simp] theorem arrivedOn_arrived :
    arrivedOn c [.arrived c' bytes] = if c' = c then bytes else [] := by simp [arrivedOn]

@[simp] theorem readOn_arrived : readOn c [.arrived c' bytes] = [] := rfl

@[simp] theorem actionsOn_arrived : actionsOn c [.arrived c' bytes] = [] := rfl

@[simp] theorem arrivedOn_handled : arrivedOn c [.handled c' bytes actions] = [] := rfl

@[simp] theorem readOn_handled :
    readOn c [.handled c' bytes actions] = if c' = c then [bytes] else [] := by
  by_cases h : c' = c <;> simp [readOn, h]

@[simp] theorem actionsOn_handled :
    actionsOn c [.handled c' bytes actions] = if c' = c then actions else [] := by
  simp [actionsOn]

end Traces

/-! ## A connection by itself -/

/-- The buffer of a connection that made these reads, `none` where it was closed. -/
def bufferOf (chunks : List Bytes) : Option RingBuffer := (run handleRead (some .fresh) chunks).1

/-- What is done for a connection that made these reads. -/
def actionsOf (chunks : List Bytes) : List Action := outputs handleRead (some .fresh) chunks

theorem bufferOf_append (chunks : List Bytes) (bytes : Bytes) :
    bufferOf (chunks ++ [bytes]) = (handleRead (bufferOf chunks) bytes).1 := by
  rw [bufferOf, run_append]
  rfl

theorem actionsOf_append (chunks : List Bytes) (bytes : Bytes) :
    actionsOf (chunks ++ [bytes]) = actionsOf chunks ++ (handleRead (bufferOf chunks) bytes).2 := by
  rw [actionsOf, outputs_append, outputs_cons, outputs_nil, List.append_nil]
  rfl

/-- The reads of a connection might as well have been one. -/
theorem actionsOf_flatten (chunks : List Bytes) : actionsOf chunks = actionsOf [chunks.flatten] := by
  have hwait : gatewayStep RingBuffer.fresh.view.1 RingBuffer.fresh.view.2 = .wait := rfl
  have hparse := reads_parse RingBuffer.valid_fresh hwait chunks
  have hparse' := reads_parse RingBuffer.valid_fresh hwait [chunks.flatten]
  rw [List.flatten_singleton] at hparse'
  exact (hparse.deterministic hparse').1

/-- Behind a close, nothing is done any more. -/
theorem actionsOf_closed {chunks : List Bytes} (h : bufferOf chunks = none) (bytes : Bytes) :
    actionsOf (chunks ++ [bytes]) = actionsOf chunks := by
  rw [actionsOf_append, h, handleRead, List.append_nil]

/-! ## What a step does to the connections -/

/-- Bytes can still arrive on the connection. -/
def Live (s : State) (c : Nat) : Prop := (s.sockets c).map Socket.ended = some false

instance (s : State) (c : Nat) : Decidable (Live s c) := inferInstanceAs (Decidable (_ = _))

/-- Nothing was let in: there are the same connections, no byte arrived, and none that had
ended is back. -/
structure NothingIn (s : State) (result : State × List Output) : Prop where
  connections : result.1.connections = s.connections
  arrived : ∀ c, arrivedOn c result.2 = []
  live : ∀ c, Live result.1 c → Live s c

section Steps
variable {s s' : State}

/-- The sockets that are touched keep whether they have ended. -/
theorem live_update {c c' : Nat} {socket : Option Socket}
    (hsocket : socket.map Socket.ended = some false → Live s c')
    (h : (Function.update s.sockets c' socket c).map Socket.ended = some false) : Live s c := by
  by_cases hc : c = c'
  · subst hc
    rw [Function.update_self] at h
    exact hsocket h
  · rwa [Function.update_of_ne hc] at h

/-- The network is not touched. -/
theorem NothingIn.of_sockets (hconnections : s'.connections = s.connections)
    (hsockets : s'.sockets = s.sockets) : NothingIn s (s', []) where
  connections := hconnections
  arrived _ := rfl
  live c h := by rwa [Live, hsockets] at h

theorem hangUp_nothingIn (s : State) (c : Nat) : NothingIn s (step s (.hangUp c)) := by
  simp only [step]
  split
  · exact ⟨rfl, fun _ => rfl, fun _ h => live_update (by simp) h⟩
  · exact .of_sockets rfl rfl

theorem epollWait_nothingIn (s : State) (events : List Event) :
    NothingIn s (step s (.epollWait events)) := by
  simp only [step]
  split
  · refine ⟨rfl, fun _ => rfl, fun c h => ?_⟩
    change ((s.sockets c).map _).map Socket.ended = some false at h
    rw [Option.map_map] at h
    rw [Live, ← h]
    congr 1
    funext socket
    simp only [Function.comp]
    split <;> rfl
  · exact .of_sockets rfl rfl

theorem acceptStep_nothingIn (s : State) (calls : Nat) (events : List Event) (fd : Option Nat) :
    NothingIn s (acceptStep s calls events fd) := by
  simp only [acceptStep]
  split
  · split
    · split
      · refine ⟨rfl, fun _ => rfl, fun _ h => live_update (fun hended => ?_) h⟩
        rwa [Option.map_map] at hended
      · exact .of_sockets rfl rfl
    · exact .of_sockets rfl rfl
  · exact .of_sockets rfl rfl

theorem readStep_nothingIn (s : State) (fd : Nat) (events : List Event) (count : Nat) :
    NothingIn s (readStep s fd events count) := by
  rw [readStep]
  split
  · exact .of_sockets rfl rfl
  · split
    · exact .of_sockets rfl rfl
    · rename_i socket hsocket
      split
      · dsimp only
        split
        · exact ⟨rfl, fun _ => rfl, fun _ h => live_update (by simp) h⟩
        · refine ⟨rfl, fun _ => rfl, fun _ h => live_update (fun hended => ?_) h⟩
          rw [Live, hsocket]
          exact hended
      · split
        · exact ⟨rfl, fun _ => rfl, fun _ h => live_update (by simp) h⟩
        · exact .of_sockets rfl rfl

/-- The thread lets nothing in; only the other side opens connections and sends bytes. -/
theorem step_nothingIn (s : State) {i : Input} (hconnect : i ≠ .connect)
    (harrive : ∀ c bytes, i ≠ .arrive c bytes) : NothingIn s (step s i) := by
  cases i with
  | connect => exact absurd rfl hconnect
  | arrive c bytes => exact absurd rfl (harrive c bytes)
  | hangUp c => exact hangUp_nothingIn s c
  | epollWait events => exact epollWait_nothingIn s events
  | next =>
    simp only [step]
    split <;> exact .of_sockets rfl rfl
  | accept fd =>
    simp only [step]
    split
    · exact acceptStep_nothingIn s _ _ fd
    · exact .of_sockets rfl rfl
  | read count =>
    simp only [step]
    split
    · exact readStep_nothingIn s _ _ count
    · exact .of_sockets rfl rfl

/-- Bytes arrive on a live connection, and on no other one. -/
theorem step_arrive (s : State) (c : Nat) (bytes : Bytes) :
    (Live s c → arrivedOn c (step s (.arrive c bytes)).2 = bytes) ∧
    (¬ Live s c → arrivedOn c (step s (.arrive c bytes)).2 = []) ∧
    ∀ c', c' ≠ c → arrivedOn c' (step s (.arrive c bytes)).2 = [] := by
  simp only [step]
  cases hsocket : s.sockets c with
  | none => exact ⟨fun hlive => by simp [Live, hsocket] at hlive, fun _ => rfl, fun _ _ => rfl⟩
  | some socket =>
    by_cases hdrop : socket.ended ∨ bytes = []
    · simp only [if_pos hdrop]
      refine ⟨fun hlive => ?_, fun _ => rfl, fun _ _ => rfl⟩
      have hended : socket.ended = false := by simpa [Live, hsocket] using hlive
      simpa [arrivedOn, hended, eq_comm] using hdrop
    · simp only [if_neg hdrop]
      refine ⟨fun _ => by simp, fun hdead => absurd ?_ hdead, fun c' hc => by simp [hc.symm]⟩
      have hended : socket.ended = false := by simpa using (not_or.mp hdrop).1
      rw [Live, hsocket, Option.map_some, hended]

/-- A step takes in what arrives on a live connection, and nothing else. -/
theorem step_arrivedOn (s : State) (i : Input) (c : Nat) :
    (∃ bytes, i = .arrive c bytes ∧ (Live s c → arrivedOn c (step s i).2 = bytes) ∧
      (¬ Live s c → arrivedOn c (step s i).2 = [])) ∨
    ((∀ bytes, i ≠ .arrive c bytes) ∧ arrivedOn c (step s i).2 = []) := by
  cases i with
  | connect => exact Or.inr ⟨by simp, rfl⟩
  | arrive c' bytes =>
    obtain ⟨hlive, hdead, hother⟩ := step_arrive s c' bytes
    by_cases hc : c' = c
    · subst hc
      exact Or.inl ⟨bytes, rfl, hlive, hdead⟩
    · exact Or.inr ⟨fun bytes' heq => hc (by cases heq; rfl), hother c (Ne.symm hc)⟩
  | _ => exact Or.inr ⟨by simp, (step_nothingIn s (by simp) (by simp)).arrived c⟩

/-- A connection that has ended does not come back. -/
theorem live_of_step {i : Input} {c : Nat} (hc : c < s.connections) (h : Live (step s i).1 c) :
    Live s c := by
  cases i with
  | connect =>
    change (Function.update s.sockets s.connections _ c).map Socket.ended = some false at h
    rwa [Function.update_of_ne (Nat.ne_of_lt hc)] at h
  | arrive c' bytes =>
    simp only [step] at h
    split at h
    · rename_i socket hsocket
      split at h
      · exact h
      · exact live_update (fun hended => by rw [Live, hsocket]; exact hended) h
    · exact h
  | _ => exact (step_nothingIn s (by simp) (by simp)).live c h

theorem step_connections (s : State) {i : Input} (h : i ≠ .connect) :
    (step s i).1.connections = s.connections := by
  cases i with
  | connect => exact absurd rfl h
  | arrive c bytes =>
    simp only [step]
    split
    · split <;> rfl
    · rfl
  | _ => exact (step_nothingIn s (by simp) (by simp)).connections

end Steps

end TradePlat.TCPServer
