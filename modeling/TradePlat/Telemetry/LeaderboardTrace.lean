import TradePlat.Telemetry.LeaderboardSteps

/-!
# What the leaderboard shows

The calls of `publish_metrics` and of `read_leaderboard` interleave, and each client
reads while the workers write. Proved here, for any number of clients and of workers, also
several for one contestant:

* `rows_shown`: the score of a row is that of a publication of its contestant; the other
  columns are the last ones that were stored, by then all earlier publications of the same
  process and of any other one all but its last; and the rows are the best ones, in order.
-/

namespace TradePlat.Leaderboard
open Runs Binary64 Gateway Scorer Telemetry

/-! ## What is stored -/

theorem metaKey_inj {id id' : String} : metaKey id = metaKey id' ↔ id = id' :=
  String.append_right_inj "contestant:meta:"

section Stored
variable {R : Type} {redis : Redis R} {zscore : R → String → Option Rat} {str : Double → String}
  {s s' : State R} {out more : List Output} {p : Nat} {id : String}

/-- Every process repeats with `hset` what it called `zadd` with, one by one. -/
def Account (out : List Output) (s : State R) : Prop :=
  ∀ p id, ofProcess p (zaddsOf id out) = ofProcess p (hashesOf id out) ++ s.pending p id

namespace Account

theorem hashes_prefix (h : Account out s) (p : Nat) (id : String) :
    ofProcess p (hashesOf id out) <+: ofProcess p (zaddsOf id out) := by
  rw [h p id]
  exact List.prefix_append _ _

/-- What comes before the last call of `zadd` has its hash. -/
theorem written (h : Account out s) {l : List Metrics}
    (hearlier : l <+: ofProcess p (zaddsOf id out))
    (hlength : l.length < (ofProcess p (zaddsOf id out)).length) :
    l <+: ofProcess p (hashesOf id out) := by
  refine List.prefix_of_prefix_length_le hearlier (h.hashes_prefix p id) ?_
  have hone := pending_length s p id
  rw [h p id, List.length_append] at hlength
  omega

/-- A step that stores nothing. -/
theorem congr (h : Account out s) (hmore : ∀ o ∈ more, o.isWrite = false)
    (hpending : ∀ p id, s'.pending p id = s.pending p id) : Account (out ++ more) s' := by
  intro p id
  obtain ⟨hzadds, hhashes⟩ := outs_unwritten id hmore
  rw [zaddsOf_append, hashesOf_append, hzadds, hhashes, List.append_nil, List.append_nil, hpending]
  exact h p id

/-- A step of one worker, whose new calls go on with what was pending. -/
theorem writes (h : Account out s) {w w' : Worker} (hw : s.workers p = some w)
    (hs : s'.workers = Function.update s.workers p (some w')) (hid : w'.id = w.id)
    (hown : w.control.pending ++ ofProcess p (zaddsOf w.id more) =
      ofProcess p (hashesOf w.id more) ++ w'.control.pending)
    (hother : ∀ q id, q ≠ p ∨ id ≠ w.id →
      ofProcess q (zaddsOf id more) = [] ∧ ofProcess q (hashesOf id more) = []) :
    Account (out ++ more) s' := by
  intro q id
  rw [zaddsOf_append, hashesOf_append, ofProcess_append, ofProcess_append, h q id]
  by_cases hq : q = p
  · subst hq
    have hw' : s'.workers q = some w' := by rw [hs, Function.update_self]
    rw [pending_of_worker hw, pending_of_worker hw', hid]
    by_cases heq : w.id = id
    · subst heq
      rw [if_pos rfl, if_pos rfl, List.append_assoc, hown, List.append_assoc]
    · obtain ⟨hzadds, hhashes⟩ := hother q id (Or.inr (Ne.symm heq))
      rw [if_neg heq, if_neg heq, hzadds, hhashes, List.append_nil]
  · obtain ⟨hzadds, hhashes⟩ := hother q id (Or.inl hq)
    have hsame : s'.workers q = s.workers q := by rw [hs, Function.update_of_ne hq]
    rw [pending_congr hsame, hzadds, hhashes, List.append_nil, List.append_nil]

theorem worker (h : Account out s) {result : State R × List Output}
    (hstep : WorkerStep redis s p result) : Account (out ++ result.2) result.1 := by
  have hcall : ∀ {id' q : _} {id : String} {metrics : Metrics}, q ≠ p ∨ id ≠ id' →
      ofProcess q (if id' = id then [(p, metrics)] else []) = [] := by
    rintro id' q id metrics (hq | hid)
    · by_cases heq : id' = id <;> simp [heq, Ne.symm hq]
    · rw [if_neg (Ne.symm hid), ofProcess_nil]
  cases hstep with
  | stays =>
    rw [List.append_nil]
    exact h
  | starts w hnone hpending =>
    refine h.congr (by simp) fun q id => ?_
    by_cases hq : q = p
    · subst hq
      have hw : (s.setWorker q w).workers q = some w := Function.update_self ..
      rw [pending_of_worker hw, hpending, State.pending, hnone]
      exact ite_self _
    · exact pending_congr (Function.update_of_ne hq _ _) id
  | moves w w' more hw hmore hid hpending =>
    have hquiet := fun id => outs_unwritten id (outs_local 0 hmore).1
    refine h.writes hw rfl hid ?_ fun q id _ => ?_
    · rw [(hquiet w.id).1, (hquiet w.id).2, hpending]
      exact List.append_nil _
    · rw [(hquiet id).1, (hquiet id).2]
      exact ⟨rfl, rfl⟩
  | zadd w metrics check hw hc =>
    refine h.writes hw rfl rfl ?_ fun q id hother => ?_
    · rw [hc, zaddsOf_zadded, if_pos rfl, ofProcess_singleton, if_pos rfl]
      rfl
    · rw [zaddsOf_zadded]
      exact ⟨hcall hother, rfl⟩
  | hset w metrics check hw hc =>
    refine h.writes hw rfl rfl ?_ fun q id hother => ?_
    · rw [hc, hashesOf_hashed, if_pos rfl, ofProcess_singleton, if_pos rfl]
      rfl
    · rw [hashesOf_hashed]
      exact ⟨rfl, hcall hother⟩

theorem next (h : Account out s) (i : Input) :
    Account (out ++ (step redis str s i).2) (step redis str s i).1 := by
  rcases step_cases redis str s i with ⟨p, -, hstep⟩ | ⟨client, -, hstep⟩ | ⟨client, -, hstep⟩
  · exact h.worker hstep
  · obtain ⟨-, hworkers, hmore, -⟩ := hstep.frame
    exact h.congr hmore fun p id => pending_congr (congrFun hworkers p) id
  · rw [hstep]
    exact h.congr (by simp) fun _ _ => rfl

end Account

/-- Redis holds the latest calls. -/
structure Stored (redis : Redis R) (zscore : R → String → Option Rat) (out : List Output)
    (r : R) : Prop where
  scores : ∀ id, zscore r id = (zaddsOf id out).getLast?.map (·.2.score)
  hashes : ∀ id, redis.hgetall r (metaKey id) = (hashesOf id out).getLast?.map Prod.snd

theorem stored_init (hlaw : redis.Lawful zscore) : Stored redis zscore [] redis.empty where
  scores id := hlaw.zscore_empty id
  hashes _ := hlaw.hgetall_empty _

namespace Stored

theorem unwritten {r : R} (h : Stored redis zscore out r) (hmore : ∀ o ∈ more, o.isWrite = false) :
    Stored redis zscore (out ++ more) r where
  scores id := by
    rw [zaddsOf_append, (outs_unwritten id hmore).1, List.append_nil]
    exact h.scores id
  hashes id := by
    rw [hashesOf_append, (outs_unwritten id hmore).2, List.append_nil]
    exact h.hashes id

theorem zadd {r : R} (h : Stored redis zscore out r) (hlaw : redis.Lawful zscore) (p : Nat)
    (id : String) (metrics : Metrics) :
    Stored redis zscore (out ++ [.zadded p id metrics]) (redis.zadd r id metrics.score) where
  scores id' := by
    rw [hlaw.zscore_zadd, zaddsOf_append, zaddsOf_zadded]
    by_cases hid : id' = id
    · rw [if_pos hid, if_pos hid.symm, List.getLast?_concat, Option.map_some]
    · rw [if_neg hid, if_neg (Ne.symm hid), List.append_nil]
      exact h.scores id'
  hashes id' := by
    rw [hlaw.hgetall_zadd, hashesOf_append, hashesOf_zadded, List.append_nil]
    exact h.hashes id'

theorem hset {r : R} (h : Stored redis zscore out r) (hlaw : redis.Lawful zscore) (p : Nat)
    (id : String) (metrics : Metrics) :
    Stored redis zscore (out ++ [.hashed p id metrics]) (redis.hset r (metaKey id) metrics) where
  scores id' := by
    rw [hlaw.zscore_hset, zaddsOf_append, zaddsOf_hashed, List.append_nil]
    exact h.scores id'
  hashes id' := by
    rw [hlaw.hgetall_hset, hashesOf_append, hashesOf_hashed]
    by_cases hid : id' = id
    · rw [if_pos (metaKey_inj.mpr hid), if_pos hid.symm, List.getLast?_concat, Option.map_some]
    · rw [if_neg fun heq => hid (metaKey_inj.mp heq), if_neg (Ne.symm hid), List.append_nil]
      exact h.hashes id'

theorem worker (h : Stored redis zscore out s.redis) (hlaw : redis.Lawful zscore)
    {result : State R × List Output} (hstep : WorkerStep redis s p result) :
    Stored redis zscore (out ++ result.2) result.1.redis := by
  cases hstep with
  | stays =>
    rw [List.append_nil]
    exact h
  | starts w hnone hpending => exact h.unwritten (by simp)
  | moves w w' more hw hmore hid hpending => exact h.unwritten (outs_local 0 hmore).1
  | zadd w metrics check hw hc => exact h.zadd hlaw p w.id metrics
  | hset w metrics check hw hc => exact h.hset hlaw p w.id metrics

end Stored

/-! ## What is read -/

/-- Where process `p` calls `zadd` behind the calls `before`: of its own calls all have
their hash in `written`, of those of any other process all but the last one. -/
structure Behind (p : Nat) (before written : List (Nat × Metrics)) : Prop where
  own : ofProcess p before <+: ofProcess p written
  others : ∀ q, (ofProcess q before).dropLast <+: ofProcess q written

/-- The row shows the score of a call of `zadd`, and in its other columns the last of the
calls of `hset` up to some moment behind it, or the defaults before the first one. -/
def Shows (zadds hashes : List (Nat × Metrics)) (r : Row) : Prop :=
  ∃ before p metrics after written rest, zadds = before ++ (p, metrics) :: after ∧
    hashes = written ++ rest ∧ Behind p before written ∧
    r = row r.rank r.id metrics.score (written.getLast?.map Prod.snd)

/-- Where one process makes all calls, the other columns are of the same publication, of
the one before it or of a later one. -/
def ShowsOne (publications : List Metrics) (r : Row) : Prop :=
  ∃ i metrics, publications[i]? = some metrics ∧ r.score = metrics.score ∧
    ((i = 0 ∧ r = row r.rank r.id r.score none) ∨
      ∃ j mapping, publications[j]? = some mapping ∧ i ≤ j + 1 ∧
        r = row r.rank r.id r.score (some mapping))

/-- The score is that of a call whose predecessors are written. -/
def Listed (out : List Output) (id : String) (score : Rat) : Prop :=
  ∃ before p metrics after, zaddsOf id out = before ++ (p, metrics) :: after ∧
    score = metrics.score ∧ Behind p before (hashesOf id out)

/-- The first ranks of the table at some moment. -/
structure Ranking (entries : List (String × Rat)) : Prop where
  length : entries.length ≤ limit
  nodup : (entries.map Prod.fst).Nodup
  sorted : entries.Pairwise fun entry later => later.2 ≤ entry.2

/-- What the rows are the first columns of. -/
def entryOf (r : Row) : (String × Rat) × Nat := ((r.id, r.score), r.rank)

@[simp] theorem row_id (rank : Nat) (id : String) (score : Rat) (mapping : Option Metrics) :
    (row rank id score mapping).id = id := by cases mapping <;> rfl

@[simp] theorem row_score (rank : Nat) (id : String) (score : Rat) (mapping : Option Metrics) :
    (row rank id score mapping).score = score := by cases mapping <;> rfl

@[simp] theorem row_rank (rank : Nat) (id : String) (score : Rat) (mapping : Option Metrics) :
    (row rank id score mapping).rank = rank := by cases mapping <;> rfl

theorem Behind.append {before written : List (Nat × Metrics)} (h : Behind p before written)
    (more : List (Nat × Metrics)) : Behind p before (written ++ more) := by
  have hmore : ∀ q, ofProcess q written <+: ofProcess q (written ++ more) :=
    fun q => ofProcess_prefix q (List.prefix_append _ _)
  exact ⟨h.own.trans (hmore p), fun q => (h.others q).trans (hmore q)⟩

theorem Shows.append {zadds hashes : List (Nat × Metrics)} {r : Row} (h : Shows zadds hashes r)
    (more more' : List (Nat × Metrics)) : Shows (zadds ++ more) (hashes ++ more') r := by
  obtain ⟨before, p, metrics, after, written, rest, rfl, rfl, hbehind, hrow⟩ := h
  exact ⟨before, p, metrics, after ++ more, written, rest ++ more', List.append_assoc _ _ _,
    List.append_assoc _ _ _, hbehind, hrow⟩

/-- Where all calls of `zadd` are of one process, those of `hset` are. -/
theorem hashes_one {zadds hashes : List (Nat × Metrics)}
    (hhashes : ∀ q, ofProcess q hashes <+: ofProcess q zadds) (hone : ∀ call ∈ zadds, call.1 = p) :
    ∀ call ∈ hashes, call.1 = p := by
  intro call hcall
  have hmem : call.2 ∈ ofProcess call.1 hashes :=
    List.mem_map_of_mem (List.mem_filter.mpr ⟨hcall, decide_eq_true rfl⟩)
  obtain ⟨call', hcall', -⟩ := List.mem_map.mp ((hhashes call.1).subset hmem)
  obtain ⟨hmem', heq⟩ := List.mem_filter.mp hcall'
  rw [← of_decide_eq_true heq]
  exact hone call' hmem'

theorem Shows.one {zadds hashes : List (Nat × Metrics)} {r : Row} (h : Shows zadds hashes r)
    (hhashes : ∀ q, ofProcess q hashes <+: ofProcess q zadds)
    (hone : ∀ call ∈ zadds, call.1 = p) : ShowsOne (zadds.map Prod.snd) r := by
  obtain ⟨before, q, metrics, after, written, rest, hzadds, hwritten, hbehind, hrow⟩ := h
  have hq : q = p := hone (q, metrics) (by simp [hzadds])
  subst hq
  have hsame := hashes_one hhashes hone
  have hlater : written.map Prod.snd <+: zadds.map Prod.snd := by
    have hearlier := hhashes q
    rw [ofProcess_all hsame, ofProcess_all hone, hwritten, List.map_append] at hearlier
    exact (List.prefix_append _ _).trans hearlier
  have hlength : before.length ≤ written.length := by
    have hown := hbehind.own.length_le
    rw [ofProcess_all fun call hcall => hone call (by simp [hzadds, hcall]),
      ofProcess_all fun call hcall => hsame call (by simp [hwritten, hcall])] at hown
    simpa using hown
  have hscore : r.score = metrics.score := by rw [hrow, row_score]
  have hmetrics : (zadds.map Prod.snd)[before.length]? = some metrics := by simp [hzadds]
  refine ⟨before.length, metrics, hmetrics, hscore, ?_⟩
  rw [← hscore] at hrow
  cases hlast : written.getLast? with
  | none =>
    rw [hlast] at hrow
    rw [List.getLast?_eq_none_iff.mp hlast] at hlength
    exact Or.inl ⟨Nat.le_zero.mp hlength, hrow⟩
  | some call =>
    rw [hlast] at hrow
    have hget : (written.map Prod.snd)[written.length - 1]? = some call.2 := by
      rw [List.getElem?_map, ← List.getLast?_eq_getElem?, hlast]
      rfl
    obtain ⟨more, hmore⟩ := hlater
    refine Or.inr ⟨written.length - 1, call.2, ?_, by omega, hrow⟩
    rw [← hmore, List.getElem?_append_left (List.getElem?_eq_some_iff.mp hget).1]
    exact hget

theorem Listed.append {score : Rat} (h : Listed out id score) (more : List Output) :
    Listed (out ++ more) id score := by
  obtain ⟨before, p, metrics, after, hzadds, hscore, hbehind⟩ := h
  refine ⟨before, p, metrics, after ++ zaddsOf id more, ?_, hscore, ?_⟩
  · rw [zaddsOf_append, hzadds, List.append_assoc, List.cons_append]
  · rw [hashesOf_append]
    exact hbehind.append _

/-- What `zrevrange` returns is published. -/
theorem Stored.listed {r : R} (h : Stored redis zscore out r) (ha : Account out s)
    (hlaw : redis.Lawful zscore) {n : Nat} {entry : String × Rat}
    (hentry : entry ∈ redis.zrevrange r n) : Listed out entry.1 entry.2 := by
  have hscore := hlaw.zrevrange_score r n entry hentry
  rw [h.scores] at hscore
  obtain ⟨⟨p, metrics⟩, hlast, hmetrics⟩ := Option.map_eq_some_iff.mp hscore
  obtain ⟨before, hzadds⟩ := List.getLast?_eq_some_iff.mp hlast
  have hearlier : ∀ q, ofProcess q before <+: ofProcess q (zaddsOf entry.1 out) := fun q => by
    rw [hzadds]
    exact ofProcess_prefix q (List.prefix_append _ _)
  refine ⟨before, p, metrics, [], hzadds, hmetrics.symm, ha.written (hearlier p) ?_, fun q => ?_⟩
  · rw [hzadds]
    simp
  · by_cases hnil : ofProcess q before = []
    · rw [hnil]
      exact List.nil_prefix
    · refine ha.written ((List.dropLast_prefix _).trans (hearlier q)) ?_
      have hpos := List.length_pos_iff.mpr hnil
      have hle := (hearlier q).length_le
      rw [List.length_dropLast]
      omega

/-- What `hgetall` returns was stored last. -/
theorem Stored.shows {r : R} (h : Stored redis zscore out r) {score : Rat}
    (hlisted : Listed out id score) (rank : Nat) :
    Shows (zaddsOf id out) (hashesOf id out)
      (row rank id score (redis.hgetall r (metaKey id))) := by
  obtain ⟨before, p, metrics, after, hzadds, rfl, hbehind⟩ := hlisted
  refine ⟨before, p, metrics, after, hashesOf id out, [], hzadds, (List.append_nil _).symm,
    hbehind, ?_⟩
  rw [row_rank, row_id, h.hashes]

/-- A client inside `read_leaderboard`. -/
structure ReadOk (out : List Output) (rest : List ((String × Rat) × Nat)) (rows : List Row) :
    Prop where
  shown : ∀ r ∈ rows, Shows (zaddsOf r.id out) (hashesOf r.id out) r
  listed : ∀ entry ∈ rest, Listed out entry.1.1 entry.1.2
  ranking : ∃ entries, Ranking entries ∧ rows.map entryOf ++ rest = entries.zipIdx 1

theorem ReadOk.append {rest : List ((String × Rat) × Nat)} {rows : List Row}
    (h : ReadOk out rest rows) (more : List Output) : ReadOk (out ++ more) rest rows where
  shown r hr := by
    rw [zaddsOf_append, hashesOf_append]
    exact (h.shown r hr).append _ _
  listed entry hentry := (h.listed entry hentry).append more
  ranking := h.ranking

theorem Stored.readOk_zrevrange {r : R} (h : Stored redis zscore out r) (ha : Account out s)
    (hlaw : redis.Lawful zscore) : ReadOk out ((redis.zrevrange r limit).zipIdx 1) [] where
  shown := by simp
  listed entry hentry := h.listed ha hlaw (List.fst_mem_of_mem_zipIdx hentry)
  ranking := ⟨_, ⟨hlaw.zrevrange_length _ _, hlaw.zrevrange_nodup _ _, hlaw.zrevrange_sorted _ _⟩,
    rfl⟩

theorem Stored.readOk_hgetall {r : R} (h : Stored redis zscore out r)
    {entry : (String × Rat) × Nat} {rest : List ((String × Rat) × Nat)} {rows : List Row}
    (hread : ReadOk out (entry :: rest) rows) :
    ReadOk out rest (rows ++ [row entry.2 entry.1.1 entry.1.2
      (redis.hgetall r (metaKey entry.1.1))]) where
  shown r' hr := by
    rcases List.mem_append.mp hr with hr | hr
    · exact hread.shown r' hr
    · rw [List.mem_singleton.mp hr, row_id]
      exact h.shows (hread.listed entry List.mem_cons_self) entry.2
  listed e he := hread.listed e (List.mem_cons_of_mem _ he)
  ranking := by
    obtain ⟨entries, hranking, heq⟩ := hread.ranking
    refine ⟨entries, hranking, ?_⟩
    rw [← heq, List.map_append, List.append_assoc]
    simp [entryOf]

/-! ## The invariant -/

structure Inv (redis : Redis R) (zscore : R → String → Option Rat) (out : List Output)
    (s : State R) : Prop where
  account : Account out s
  stored : Stored redis zscore out s.redis
  reading : ∀ client kind rest rows,
    (s.clients client).control = .reading kind (.hgetall rest rows) → ReadOk out rest rows

theorem inv_init (hlaw : redis.Lawful zscore) : Inv redis zscore [] (.init redis) where
  account _ _ := rfl
  stored := stored_init hlaw
  reading := by simp [State.init]

namespace Inv

/-- What a client reads behind its step, in the trace before it. -/
theorem reading_step (h : Inv redis zscore out s) (hlaw : redis.Lawful zscore) {client : Nat}
    {i : Input} {result : State R × List Output} (hstep : ClientStep redis s client i result)
    {kind : Kind} {rest : List ((String × Rat) × Nat)} {rows : List Row}
    (hc : (result.1.clients client).control = .reading kind (.hgetall rest rows)) :
    ReadOk out rest rows := by
  cases hstep with
  | stays => exact h.reading client kind rest rows hc
  | opens kind' habsent =>
    rw [setClient_self] at hc
    cases hc
  | takes kind' now hget hkind =>
    rw [setClient_self] at hc
    cases hc
  | sends kind' rows' control hrows hcontrol =>
    rw [setClient_self] at hc
    dsimp only at hc
    rw [hcontrol] at hc
    split at hc <;> cases hc
  | reads kind' reading hreading hno =>
    rw [setClient_self] at hc
    cases reading with
    | zrevrange =>
      cases hc
      exact h.stored.readOk_zrevrange h.account hlaw
    | hgetall rest' rows' =>
      have hread := h.reading client kind' rest' rows' hreading
      cases rest' with
      | nil => exact absurd rfl (hno rows')
      | cons entry rest' =>
        cases hc
        exact h.stored.readOk_hgetall hread

variable (str) in
/-- **Every step keeps the invariant.** -/
theorem next (h : Inv redis zscore out s) (hlaw : redis.Lawful zscore) (i : Input) :
    Inv redis zscore (out ++ (step redis str s i).2) (step redis str s i).1 := by
  refine ⟨h.account.next i, ?_, fun client kind rest rows hc => ?_⟩
  · rcases step_cases redis str s i with ⟨p, -, hstep⟩ | ⟨client, -, hstep⟩ | ⟨client, -, hstep⟩
    · exact h.stored.worker hlaw hstep
    · obtain ⟨hredis, -, hmore, -⟩ := hstep.frame
      rw [hredis]
      exact h.stored.unwritten hmore
    · rw [hstep]
      exact h.stored.unwritten (by simp)
  · refine ReadOk.append ?_ _
    rcases step_cases redis str s i with ⟨p, -, hstep⟩ | ⟨client', -, hstep⟩ | ⟨client', -, hstep⟩
    · rw [(hstep.clients client).1] at hc
      exact h.reading client kind rest rows hc
    · by_cases hclient : client = client'
      · subst hclient
        exact h.reading_step hlaw hstep hc
      · rw [(hstep.frame.2.2.2 client hclient).1] at hc
        exact h.reading client kind rest rows hc
    · rw [hstep] at hc
      by_cases hclient : client = client'
      · subst hclient
        rw [setClient_self] at hc
        cases hc
      · rw [setClient_other hclient] at hc
        exact h.reading client kind rest rows hc

/-- What is sent was read. -/
theorem sent (h : Inv redis zscore out s) {i : Input} {client : Nat} {kind : Kind}
    {rows : List Row} (hsent : .sent client kind rows ∈ (step redis str s i).2) :
    ReadOk out [] rows := by
  rcases step_cases redis str s i with ⟨p, -, hstep⟩ | ⟨client', -, hstep⟩ | ⟨client', -, hstep⟩
  · generalize step redis str s i = result at hstep hsent
    cases hstep with
    | moves w w' more hw hmore => exact absurd (hmore _ hsent) (by simp [Output.isLocal])
    | _ => simp at hsent
  · generalize step redis str s i = result at hstep hsent
    cases hstep with
    | sends kind' rows' control hc hcontrol =>
      simp only [List.mem_singleton, Output.sent.injEq] at hsent
      obtain ⟨rfl, rfl, rfl⟩ := hsent
      exact h.reading client kind [] rows hc
    | _ => cases hsent
  · rw [hstep] at hsent
    cases hsent

end Inv

variable (str) in
theorem inv_run (hlaw : redis.Lawful zscore) (inputs : List Input) :
    Inv redis zscore (outputs (step redis str) (.init redis) inputs)
      (run (step redis str) (.init redis) inputs).1 :=
  invariant_run (fun _ out s => Inv redis zscore out s) (fun _ _ _ i h _ => h.next str hlaw i)
    (inv_init hlaw) (guarded_true _ _ _ inputs)

end Stored

/-- **What a client is sent.** In every run of any number of workers and clients, whatever
the channel does: the rows that are sent are at most 25, with the ranks from 1 on, of
different contestants, by descending scores. Each shows the score of a publication of its
contestant and, in its other columns, what was stored last at some moment; by then all
earlier publications of the same process were stored, and those of any other process but
for the last one; so that where all are of one process, the other columns are of the same
publication, of the one before it or of a later one. -/
theorem rows_shown {R : Type} (redis : Redis R) (zscore : R → String → Option Rat)
    (hlaw : redis.Lawful zscore) (str : Double → String) (inputs : List Input) (i : Input)
    (client : Nat) (kind : Kind) (rows : List Row)
    (hsent : .sent client kind rows ∈
      (step redis str (run (step redis str) (.init redis) inputs).1 i).2) :
    let out := outputs (step redis str) (.init redis) inputs
    rows.length ≤ limit ∧ rows.map Row.rank = List.range' 1 rows.length ∧
      (rows.map Row.id).Nodup ∧ rows.Pairwise (fun r later => later.score ≤ r.score) ∧
      (∀ p id, ofProcess p (hashesOf id out) <+: ofProcess p (zaddsOf id out)) ∧
      ∀ r ∈ rows, Shows (zaddsOf r.id out) (hashesOf r.id out) r ∧
        ∀ p, (∀ call ∈ zaddsOf r.id out, call.1 = p) →
          ShowsOne ((zaddsOf r.id out).map Prod.snd) r := by
  intro out
  have h : Inv redis zscore out _ := inv_run str hlaw inputs
  have hread := h.sent hsent
  obtain ⟨entries, hranking, heq⟩ := hread.ranking
  rw [List.append_nil] at heq
  have hlen := congrArg List.length heq
  rw [List.length_map, List.length_zipIdx] at hlen
  have hentries : rows.map (fun r => (r.id, r.score)) = entries := by
    have hfst := congrArg (List.map Prod.fst) heq
    rw [List.map_map, List.zipIdx_map_fst] at hfst
    exact hfst
  have hranks : rows.map Row.rank = List.range' 1 rows.length := by
    have hsnd := congrArg (List.map Prod.snd) heq
    rw [List.map_map, List.zipIdx_map_snd] at hsnd
    rw [hlen]
    exact hsnd
  refine ⟨hlen ▸ hranking.length, hranks, ?_, ?_, h.account.hashes_prefix, fun r hr =>
    ⟨hread.shown r hr, fun p hone =>
      (hread.shown r hr).one (fun q => h.account.hashes_prefix q r.id) hone⟩⟩
  · have hnodup := hranking.nodup
    rw [← hentries, List.map_map] at hnodup
    exact hnodup
  · have hsorted := hranking.sorted
    rw [← hentries, List.pairwise_map] at hsorted
    exact hsorted

/-- One event, with match id `n`. -/
def oneTrade (n : Nat) : Poll :=
  .message (packed ⟨n, 1, 2, 1, 2, 3, ⟨0x4024000000000000⟩, 5⟩)

/-- A worker is killed between its second `zadd` and the `hset`, the next one of the same
contestant gets as far as its first `zadd`, and a client reads. -/
def restartRun : List Input :=
  List.flatten [[.start 0 "a" 1 1 0, .poll 0 (oneTrade 1)], List.replicate 7 (.worker 0 2),
    [.poll 0 (oneTrade 2)], List.replicate 5 (.worker 0 4), [.kill 0, .start 1 "a" 1 1 4,
      .poll 1 (oneTrade 3)], List.replicate 5 (.worker 1 6), [.subscribe 0, .client 0, .client 0]]

theorem restartRun_shown :
    let machine := step Store.redis fun _ => ""
    let out := outputs machine (.init Store.redis) restartRun
    let rows := [row 1 "a" 10 (some ⟨1, 1 / 1000, 1 / 1000, 1 / 1000, 10, "PASSED", 1, 2, 1⟩)]
    (zaddsOf "a" out).map (fun call => (call.1, call.2.lastMatchId)) = [(0, 1), (0, 2), (1, 3)] ∧
      .sent 0 .snapshot rows ∈
        (machine (run machine (.init Store.redis) restartRun).1 (.client 0)).2 ∧
      ∀ r ∈ rows, Shows (zaddsOf r.id out) (hashesOf r.id out) r := by
  intro machine out rows
  have hsent : .sent 0 .snapshot rows ∈
      (machine (run machine (.init Store.redis) restartRun).1 (.client 0)).2 := by decide +kernel
  obtain ⟨-, -, -, -, -, hshown⟩ := rows_shown Store.redis _ Store.lawful _ _ _ _ _ _ hsent
  exact ⟨by decide +kernel, hsent, fun r hr => (hshown r hr).1⟩

end TradePlat.Leaderboard
