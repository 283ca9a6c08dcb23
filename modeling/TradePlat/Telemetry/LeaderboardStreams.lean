import TradePlat.Telemetry.LeaderboardTrace

/-!
# The streams of the leaderboard

A stream reads the leaderboard anew where it is told of a publication or its last snapshot
is five seconds old. Whatever the channel did before, the rows it then sends are the table
as it is, where nothing is stored meanwhile: `stream_heals`.
-/

namespace TradePlat.Leaderboard
open Runs Binary64 Gateway Scorer Telemetry

section Streams
variable {R : Type} {redis : Redis R} {zscore : R → String → Option Rat} {str : Double → String}
  {s : State R} {out : List Output} {client : Nat} {i : Input}

/-- The row of a ranked contestant as Redis has it. -/
def rowNow (redis : Redis R) (r : R) (entry : (String × Rat) × Nat) : Row :=
  row entry.2 entry.1.1 entry.1.2 (redis.hgetall r (metaKey entry.1.1))

def table (redis : Redis R) (r : R) : List Row :=
  ((redis.zrevrange r limit).zipIdx 1).map (rowNow redis r)

/-- A stream that has read nothing else than the table. -/
def ClientControl.Tabled (redis : Redis R) (r : R) : ClientControl → Prop
  | .absent | .reading .response _ => False
  | .getMessage | .reading _ .zrevrange => True
  | .reading _ (.hgetall rest rows) => rows ++ rest.map (rowNow redis r) = table redis r

/-- What a stream does while the table stays as it is. -/
theorem ClientStep.tabled {result : State R × List Output}
    (h : ClientStep redis s client i result) (hlaw : redis.Lawful zscore)
    (htabled : (s.clients client).control.Tabled redis s.redis) :
    (result.1.clients client).control.Tabled redis s.redis ∧
      (rowsSent client result.2 = [table redis s.redis] ∨ rowsSent client result.2 = [] ∧
        ((s.clients client).control.steps = 0 ∨ 0 < (result.1.clients client).control.steps ∧
          (result.1.clients client).control.steps + [i].count (.client client) ≤
            (s.clients client).control.steps)) := by
  have hone : [i].count (.client client) ≤ 1 := List.count_le_length
  cases h with
  | stays hi =>
    refine ⟨htabled, Or.inr ⟨rfl, ?_⟩⟩
    by_cases heq : i = .client client
    · exact Or.inl (hi heq)
    · rw [List.count_eq_zero.mpr (by simpa using Ne.symm heq), Nat.add_zero]
      exact (Nat.eq_zero_or_pos _).imp id fun hpos => ⟨hpos, Nat.le_refl _⟩
  | opens kind habsent =>
    rw [habsent] at htabled
    exact htabled.elim
  | takes kind now hget hkind =>
    rw [setClient_self, hget]
    refine ⟨?_, Or.inr ⟨rfl, Or.inl rfl⟩⟩
    cases kind with
    | response => exact absurd rfl hkind
    | snapshot | update => trivial
  | sends kind rows control hrows hcontrol =>
    rw [hrows] at htabled
    rw [setClient_self, hcontrol]
    cases kind with
    | response => exact htabled.elim
    | snapshot | update =>
      refine ⟨trivial, Or.inl ?_⟩
      have hrows' : rows = table redis s.redis := by
        simpa [ClientControl.Tabled] using htabled
      simp [rowsSent, hrows']
  | reads kind reading hreading hno =>
    rw [hreading] at htabled
    rw [setClient_self, hreading]
    cases kind with
    | response => exact htabled.elim
    | snapshot | update =>
      cases reading with
      | zrevrange =>
        refine ⟨rfl, Or.inr ⟨rfl, Or.inr ⟨Nat.succ_pos _, ?_⟩⟩⟩
        have hlength := hlaw.zrevrange_length s.redis limit
        rw [← List.length_zipIdx (i := 1)] at hlength
        change List.length _ + 1 + _ ≤ limit + 2
        omega
      | hgetall rest rows =>
        cases rest with
        | nil => exact absurd rfl (hno rows)
        | cons entry rest =>
          refine ⟨?_, Or.inr ⟨rfl, Or.inr ⟨Nat.succ_pos _, ?_⟩⟩⟩
          · change (rows ++ [rowNow redis s.redis entry]) ++ _ = _
            rw [List.append_assoc]
            exact htabled
          · change rest.length + 1 + _ ≤ rest.length + 1 + 1
            omega

/-- A stream that is to send the table `r`, behind `past`. -/
structure Heals (redis : Redis R) (client : Nat) (r : R) (past : List Input) (out : List Output)
    (s : State R) : Prop where
  stored : s.redis = r
  tabled : (s.clients client).control.Tabled redis r
  sent : (rowsSent client out).getLast? = some (table redis r) ∨
    0 < (s.clients client).control.steps ∧
      (s.clients client).control.steps + past.count (.client client) ≤ limit + 2

/-- **Every step that stores nothing brings the stream closer.** -/
theorem Heals.next {r : R} {past : List Input} (h : Heals redis client r past out s)
    (hlaw : redis.Lawful zscore) (hi : i ≠ .close client)
    (hmore : ∀ o ∈ (step redis str s i).2, o.isWrite = false) :
    Heals redis client r (past ++ [i]) (out ++ (step redis str s i).2) (step redis str s i).1 := by
  obtain ⟨rfl, htabled, hsent⟩ := h
  -- what others do
  have hkeeps : ∀ {result : State R × List Output}, i ≠ .client client →
      result.1.redis = s.redis → result.1.clients client = s.clients client →
      rowsSent client result.2 = [] →
      Heals redis client s.redis (past ++ [i]) (out ++ result.2) result.1 := by
    intro result hne hredis hclient hrows
    refine ⟨hredis, by rw [hclient]; exact htabled, ?_⟩
    rw [hclient, rowsSent_append, hrows, List.append_nil, List.count_append,
      List.count_eq_zero.mpr (show .client client ∉ [i] by simpa using Ne.symm hne), Nat.add_zero]
    exact hsent
  rcases step_cases redis str s i with
    ⟨p, hp, hstep⟩ | ⟨client', hp, hstep⟩ | ⟨client', rfl, hstep⟩
  · refine hkeeps (by rintro rfl; cases hp) (hstep.unwritten hmore) ?_ ?_
    · rw [(hstep.clients client).1]
    · exact (hstep.clients client).2
  · obtain ⟨hredis, -, -, hothers⟩ := hstep.frame
    by_cases hclient : client = client'
    · subst hclient
      obtain ⟨htabled', hrows⟩ := hstep.tabled hlaw htabled
      refine ⟨hredis, htabled', ?_⟩
      rw [rowsSent_append, List.count_append]
      rcases hrows with hrows | ⟨hrows, hsteps⟩
      · rw [hrows]
        exact Or.inl (List.getLast?_concat ..)
      · rw [hrows, List.append_nil]
        refine hsent.imp id fun ⟨hpos, hle⟩ => ?_
        rcases hsteps with hzero | ⟨hpos', hless⟩
        · omega
        · exact ⟨hpos', by omega⟩
    · refine hkeeps ?_ hredis (hothers client hclient).1 (hothers client hclient).2
      rintro rfl
      exact hclient (Option.some.inj hp)
  · have hclient : client ≠ client' := fun heq => hi (congrArg _ heq.symm)
    rw [hstep]
    exact hkeeps (by simp) rfl (setClient_other hclient) rfl

/-- A stream that is told, or whose snapshot is old, reads. -/
theorem getMessageStep_due (s : State R) {message : Bool} {now : Rat}
    (hcontrol : (s.clients client).control = .getMessage)
    (hdue : message = true ∨ 5 ≤ now - (s.clients client).lastSnapshot) :
    ∃ kind, kind ≠ .response ∧ getMessageStep s client message now =
      s.setClient client ⟨.reading kind .zrevrange, now⟩ := by
  rw [getMessageStep, hcontrol]
  dsimp only
  split
  · exact ⟨_, by simp, rfl⟩
  · rename_i hmessage
    rw [if_pos (hdue.resolve_left hmessage)]
    exact ⟨_, by simp, rfl⟩

/-- While nothing is stored, the stream sends the table. -/
theorem heals_run (hlaw : redis.Lawful zscore) {kind : Kind} (hkind : kind ≠ .response)
    (hreading : (s.clients client).control = .reading kind .zrevrange) {more : List Input}
    (hopen : .close client ∉ more)
    (hquiet : ∀ o ∈ outputs (step redis str) s more, o.isWrite = false)
    (hsteps : limit + 2 ≤ more.count (.client client)) :
    (run (step redis str) s more).1.redis = s.redis ∧
      (rowsSent client (outputs (step redis str) s more)).getLast? =
        some (table redis s.redis) := by
  have hstart : Heals redis client s.redis [] [] s := by
    refine ⟨rfl, ?_, Or.inr ?_⟩
    · rw [hreading]
      cases kind with
      | response => exact absurd rfl hkind
      | snapshot | update => trivial
    · rw [hreading]
      exact ⟨Nat.succ_pos _, Nat.le_refl _⟩
  have hguard : Guarded (step redis str) (fun _ s i => i ≠ .close client ∧
      ∀ o ∈ (step redis str s i).2, o.isWrite = false) [] s more :=
    guarded_iff_forall.mpr fun before i after heq =>
      ⟨fun hi => hopen (by simp [heq, hi]), fun o ho =>
        hquiet o ((mem_outputs _ _).mpr ⟨before, i, after, heq, ho⟩)⟩
  obtain ⟨hstored, -, hsent⟩ := invariant_run (Heals redis client s.redis)
    (fun _ _ _ _ h hok => h.next hlaw hok.1 hok.2) hstart hguard
  exact ⟨hstored, hsent.resolve_right fun ⟨hpos, hle⟩ => by omega⟩

/-- What the table shows. -/
theorem Stored.table {r : R} (h : Stored redis zscore out r) (hlaw : redis.Lawful zscore) :
    (∀ row' ∈ table redis r, ∃ p metrics, (zaddsOf row'.id out).getLast? = some (p, metrics) ∧
      row' = row row'.rank row'.id metrics.score ((hashesOf row'.id out).getLast?.map Prod.snd)) ∧
    ∀ id p metrics, (zaddsOf id out).getLast? = some (p, metrics) →
      (∃ row' ∈ table redis r, row'.id = id) ∨ ((table redis r).length = limit ∧
        ∀ row' ∈ table redis r, metrics.score ≤ row'.score) := by
  refine ⟨fun row' hrow => ?_, fun id p metrics hlast => ?_⟩
  · obtain ⟨entry, hentry, rfl⟩ := List.mem_map.mp hrow
    have hscore := hlaw.zrevrange_score _ _ _ (List.fst_mem_of_mem_zipIdx hentry)
    rw [h.scores] at hscore
    obtain ⟨⟨p, metrics⟩, hlast, hmetrics⟩ := Option.map_eq_some_iff.mp hscore
    rw [rowNow, row_id, row_rank, h.hashes]
    exact ⟨p, metrics, hlast, by rw [← hmetrics]⟩
  · have hscore := h.scores id
    rw [hlast, Option.map_some] at hscore
    rcases hlaw.zrevrange_first r limit id metrics.score hscore with hmem | ⟨hfull, hbest⟩
    · obtain ⟨i, hget⟩ := List.mem_iff_getElem?.mp hmem
      exact Or.inl ⟨_, List.mem_map_of_mem (List.mk_add_mem_zipIdx_iff_getElem?.mpr hget),
        row_id _ _ _ _⟩
    · refine Or.inr ⟨?_, fun row' hrow => ?_⟩
      · rw [Leaderboard.table, List.length_map, List.length_zipIdx, hfull]
      · obtain ⟨entry, hentry, rfl⟩ := List.mem_map.mp hrow
        rw [rowNow, row_score]
        exact hbest _ (List.fst_mem_of_mem_zipIdx hentry)

/-- Where one process published for a contestant and is behind its `hset`, all is written. -/
theorem Account.written_one (h : Account out s) {p : Nat} {id : String}
    (hone : ∀ call ∈ zaddsOf id out, call.1 = p) (hpending : s.pending p id = []) :
    hashesOf id out = zaddsOf id out := by
  have hsame := hashes_one (fun q => h.hashes_prefix q id) hone
  have hall : ∀ {calls : List (Nat × Metrics)}, (∀ call ∈ calls, call.1 = p) →
      calls = (ofProcess p calls).map (Prod.mk p) := by
    intro calls hcalls
    rw [ofProcess_all hcalls, List.map_map]
    refine (List.map_id calls).symm.trans (List.map_congr_left fun call hcall => ?_)
    exact Prod.ext (hcalls call hcall) rfl
  rw [hall hsame, hall hone, h p id, hpending, List.append_nil]

end Streams

/-- **A stream heals.** In every run of any number of workers and clients, whatever messages
the channel lost, delayed or doubled: where a stream is told of a publication or its last
snapshot is five seconds old, and nothing is stored while it makes 27 more steps and stays
open, the rows it was sent last show for each of their contestants the score of the last
`zadd` and the columns of the last `hset`, which are one publication where one process
published for the contestant and is behind its `hset`; and a contestant that is not among
them has a score no better than any of 25 rows. -/
theorem stream_heals {R : Type} (redis : Redis R) (zscore : R → String → Option Rat)
    (hlaw : redis.Lawful zscore) (str : Double → String) (inputs more : List Input)
    (client : Nat) (message : Bool) (now : Rat)
    (hcontrol : ((run (step redis str) (.init redis) inputs).1.clients client).control =
      .getMessage)
    (hdue : message = true ∨
      5 ≤ now - ((run (step redis str) (.init redis) inputs).1.clients client).lastSnapshot)
    (hopen : .close client ∉ more)
    (hquiet : ∀ o ∈ outputs (step redis str) (run (step redis str) (.init redis)
      (inputs ++ [.getMessage client message now])).1 more, o.isWrite = false)
    (hsteps : limit + 2 ≤ more.count (.client client)) :
    let out := outputs (step redis str) (.init redis)
      (inputs ++ [.getMessage client message now] ++ more)
    let s := (run (step redis str) (.init redis)
      (inputs ++ [.getMessage client message now] ++ more)).1
    ∃ rows, (rowsSent client out).getLast? = some rows ∧
      (∀ r ∈ rows, ∃ p metrics, (zaddsOf r.id out).getLast? = some (p, metrics) ∧
        r = row r.rank r.id metrics.score ((hashesOf r.id out).getLast?.map Prod.snd)) ∧
      (∀ id p, (∀ call ∈ zaddsOf id out, call.1 = p) → s.pending p id = [] →
        hashesOf id out = zaddsOf id out) ∧
      ∀ id p metrics, (zaddsOf id out).getLast? = some (p, metrics) →
        (∃ r ∈ rows, r.id = id) ∨
          (rows.length = limit ∧ ∀ r ∈ rows, metrics.score ≤ r.score) := by
  intro out s
  have hinv : Inv redis zscore out s := inv_run str hlaw _
  have hsent : (rowsSent client out).getLast? = some (table redis s.redis) := by
    have hone : (run (step redis str) (.init redis)
          (inputs ++ [.getMessage client message now])).1 =
        getMessageStep (run (step redis str) (.init redis) inputs).1 client message now := by
      rw [run_append_state]
      rfl
    obtain ⟨kind, hkind, htakes⟩ := getMessageStep_due _ hcontrol hdue
    rw [htakes] at hone
    obtain ⟨hstored, hlast⟩ := heals_run hlaw hkind
      (by rw [hone, setClient_self]) hopen hquiet hsteps
    have hend : s = _ := run_append_state (step redis str) (.init redis)
      (inputs ++ [.getMessage client message now]) more
    have hout : out = _ := outputs_append (step redis str) (.init redis)
      (inputs ++ [.getMessage client message now]) more
    rw [hend, hstored, hout, rowsSent_append, List.getLast?_append, hlast]
    rfl
  obtain ⟨hshows, hbest⟩ := hinv.stored.table hlaw
  exact ⟨_, hsent, hshows, fun id p hone hpending => hinv.account.written_one hone hpending, hbest⟩

/-- The stream misses the publication, and its next snapshot shows it. -/
def lateRun : List Input :=
  restartRun ++ [.client 0, .client 0, .worker 1 6, .worker 1 6]

theorem lateRun_heals :
    let machine := step Store.redis fun _ => ""
    let out := outputs machine (.init Store.redis)
      (lateRun ++ [.getMessage 0 false 7] ++ List.replicate 27 (.client 0))
    (zaddsOf "a" out).map (fun call => (call.1, call.2.lastMatchId)) = [(0, 1), (0, 2), (1, 3)] ∧
      ∃ rows, (rowsSent 0 out).getLast? = some rows ∧
        ∀ r ∈ rows, ∃ p metrics, (zaddsOf r.id out).getLast? = some (p, metrics) ∧
          r = row r.rank r.id metrics.score ((hashesOf r.id out).getLast?.map Prod.snd) := by
  intro machine out
  obtain ⟨rows, hlast, hrows, -, -⟩ := stream_heals Store.redis _ Store.lawful (fun _ => "")
    lateRun (List.replicate 27 (.client 0)) 0 false 7 (by decide +kernel) (by decide +kernel)
    (by decide +kernel) (by decide +kernel) (by decide +kernel)
  exact ⟨by decide +kernel, rows, hlast, hrows⟩

end TradePlat.Leaderboard
