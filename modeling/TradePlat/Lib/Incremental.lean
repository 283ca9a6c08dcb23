import TradePlat.Lib.Runs

/-!
# Incremental parsers

A parser reads a growing buffer. Its step either waits for more input, or
consumes some of the buffer and gives outputs, or stops for good. What it does
not wait for it has seen: more input behind the buffer never changes the step
(`stable`). `Parses` repeats the step until it waits or stops. A machine that
parses after every chunk it receives gives the outputs of the whole stream,
however the stream is cut (`chunks_parse`, `Parses.deterministic`).
-/

namespace TradePlat.Incremental
open Runs

variable {σ τ β ο : Type}

inductive Step (σ ο : Type) where
  | wait
  | next (s : σ) (consumed : Nat) (out : List ο)
  | stop (out : List ο)

structure Parser (σ β ο : Type) where
  step : σ → List β → Step σ ο
  within : ∀ {s buf s' n out}, step s buf = .next s' n out → n ≤ buf.length
  stable : ∀ {s buf}, step s buf ≠ .wait → ∀ more, step s (buf ++ more) = step s buf

/-- Repeated steps, to the first that waits, with the state and the unread buffer
there, or to a stop. -/
inductive Parses (p : Parser σ β ο) : σ → List β → List ο → Option (σ × List β) → Prop
  | wait {s : σ} {buf : List β} : p.step s buf = .wait → Parses p s buf [] (some (s, buf))
  | stop {s : σ} {buf : List β} {out : List ο} :
      p.step s buf = .stop out → Parses p s buf out none
  | next {s s' : σ} {buf : List β} {n : Nat} {out out' : List ο} {r : Option (σ × List β)} :
      p.step s buf = .next s' n out → Parses p s' (buf.drop n) out' r →
      Parses p s buf (out ++ out') r

section
variable {p : Parser σ β ο} {s : σ} {buf : List β} {out out' : List ο} {r r' : Option (σ × List β)}

theorem Parses.deterministic (h : Parses p s buf out r) (h' : Parses p s buf out' r') :
    out = out' ∧ r = r' := by
  induction h generalizing out' r' with
  | wait hw =>
    cases h' with
    | wait _ => exact ⟨rfl, rfl⟩
    | stop hs => cases hw.symm.trans hs
    | next hn _ => cases hw.symm.trans hn
  | stop hs =>
    cases h' with
    | wait hw => cases hs.symm.trans hw
    | stop hs' =>
      cases hs.symm.trans hs'
      exact ⟨rfl, rfl⟩
    | next hn _ => cases hs.symm.trans hn
  | next hn _ ih =>
    cases h' with
    | wait hw => cases hn.symm.trans hw
    | stop hs => cases hn.symm.trans hs
    | next hn' h' =>
      cases hn.symm.trans hn'
      obtain ⟨rfl, rfl⟩ := ih h'
      exact ⟨rfl, rfl⟩

/-- What is left at the end waits. -/
theorem Parses.settled {s' : σ} {buf' : List β} (h : Parses p s buf out (some (s', buf'))) :
    p.step s' buf' = .wait := by
  generalize hr : (some (s', buf') : Option (σ × List β)) = r at h
  induction h with
  | wait hw =>
    cases hr
    exact hw
  | stop _ => cases hr
  | next _ _ ih => exact ih hr

/-- After a stop, more input changes nothing. -/
theorem Parses.stop_append (h : Parses p s buf out none) (more : List β) :
    Parses p s (buf ++ more) out none := by
  generalize hr : (none : Option (σ × List β)) = r at h
  induction h with
  | wait _ => cases hr
  | stop hs => exact .stop ((p.stable (by simp [hs]) more).trans hs)
  | next hn _ ih =>
    refine .next ((p.stable (by simp [hn]) more).trans hn) ?_
    rw [List.drop_append_of_le_length (p.within hn)]
    exact ih hr

/-- More input is parsed behind what was left. -/
theorem Parses.append {s' : σ} {buf' more : List β}
    (h : Parses p s buf out (some (s', buf'))) (h' : Parses p s' (buf' ++ more) out' r') :
    Parses p s (buf ++ more) (out ++ out') r' := by
  generalize hr : (some (s', buf') : Option (σ × List β)) = r at h
  induction h with
  | wait _ =>
    cases hr
    exact h'
  | stop _ => cases hr
  | next hn _ ih =>
    rw [List.append_assoc]
    refine .next ((p.stable (by simp [hn]) more).trans hn) ?_
    rw [List.drop_append_of_le_length (p.within hn)]
    exact ih hr

theorem run_stopped {feed : Option τ → List β → Option τ × List ο}
    (hstopped : ∀ chunk, feed none chunk = (none, [])) (chunks : List (List β)) :
    (run feed none chunks).1 = none ∧ outputs feed none chunks = [] := by
  induction chunks with
  | nil => exact ⟨rfl, rfl⟩
  | cons chunk chunks ih => simpa [run, hstopped] using ih

/-- **Chunk rule.** `feed` takes a chunk, `view` is the state and the unread
buffer it keeps, `none` once it stopped. If `feed` parses what it keeps and the
chunk, then a run over chunks parses their concatenation. -/
theorem chunks_parse {feed : Option τ → List β → Option τ × List ο} {ok : τ → Prop}
    {view : τ → σ × List β}
    (hstopped : ∀ chunk, feed none chunk = (none, []))
    (hfeed : ∀ t chunk, ok t →
      Parses p (view t).1 ((view t).2 ++ chunk) (feed (some t) chunk).2
        ((feed (some t) chunk).1.map view) ∧ ∀ t' ∈ (feed (some t) chunk).1, ok t')
    (chunks : List (List β)) {t : τ} (hok : ok t)
    (hsettled : p.step (view t).1 (view t).2 = .wait) :
    Parses p (view t).1 ((view t).2 ++ chunks.flatten) (outputs feed (some t) chunks)
      ((run feed (some t) chunks).1.map view) := by
  have hnone := run_stopped hstopped
  induction chunks generalizing t with
  | nil => simpa [run] using Parses.wait hsettled
  | cons chunk chunks ih =>
    obtain ⟨hparse, hok'⟩ := hfeed t chunk hok
    rw [List.flatten_cons, ← List.append_assoc, outputs_cons]
    simp only [run]
    cases hr : (feed (some t) chunk).1 with
    | none =>
      rw [hr] at hparse
      rw [(hnone chunks).1, (hnone chunks).2, List.append_nil]
      exact hparse.stop_append _
    | some t' =>
      rw [hr] at hparse
      exact hparse.append (ih (hok' t' hr) hparse.settled)

end

end TradePlat.Incremental
