import Mathlib.Data.List.Infix
import Mathlib.Logic.Function.Basic

/-!
# Readiness of the stack (`run_loadtest.py`)

`wait_until_ready` polls `docker compose ps` and reads a table of services from its
output: a line is a service name, a tab and a status, and a later line for a service
replaces an earlier one (`serviceStates_eq_some_iff`). A poll is accepted where every
service has a status that starts with `Up` and every one with a health check has a status
with the word `healthy` in it (`readyPoll_iff`). A container that fails its check is
reported as `(unhealthy)`, which has that word in it too.
-/

namespace TradePlat.Bench

abbrev Text := List Char

/-! ## Text, as Python has it -/

/-- The ends of a line for `str.splitlines`. -/
def lineBreaks : List Char :=
  ['\n', '\x0b', '\x0c', '\r', '\x1c', '\x1d', '\x1e', '\u0085', '\u2028', '\u2029']

/-- The loop of `str.splitlines`, with the line read so far. -/
def splitlinesFrom (line : Text) : Text → List Text
  | [] => if line.isEmpty then [] else [line]
  | '\r' :: '\n' :: rest => line :: splitlinesFrom [] rest
  | c :: rest =>
    if c ∈ lineBreaks then line :: splitlinesFrom [] rest else splitlinesFrom (line ++ [c]) rest

def splitlines (text : Text) : List Text := splitlinesFrom [] text

/-- The white space of `str.strip`. -/
def isSpace (c : Char) : Bool :=
  c ∈ lineBreaks || c ∈ ['\t', '\x1f', ' ', '\u00a0', '\u1680', '\u202f', '\u205f', '\u3000'] ||
    (0x2000 ≤ c.toNat && c.toNat ≤ 0x200a)

def strip (text : Text) : Text := (((text.dropWhile isSpace).reverse).dropWhile isSpace).reverse

/-! ## The table of services -/

def stackServices : List Text :=
  ["zookeeper".toList, "kafka".toList, "redis".toList, "matching-engine".toList,
    "scoring-engine".toList]

def healthchecked : List Text := ["zookeeper".toList, "kafka".toList, "redis".toList]

/-- What `service_states` makes of one line: nothing without a tab, else the split at the first. -/
def stateEntry (line : Text) : Option (Text × Text) :=
  if '\t' ∈ line then
    some (strip (line.takeWhile (· ≠ '\t')), strip ((line.dropWhile (· ≠ '\t')).drop 1))
  else none

/-- `states[name] = status`. -/
def putState (states : Text → Option Text) (entry : Text × Text) : Text → Option Text :=
  Function.update states entry.1 (some entry.2)

/-- The body of the loop of `service_states`. -/
def addState (states : Text → Option Text) (line : Text) : Text → Option Text :=
  match stateEntry line with
  | some entry => putState states entry
  | none => states

/-- `service_states`, on the output of `docker compose ps`. -/
def serviceStates (stdout : Text) : Text → Option Text :=
  (splitlines stdout).foldl addState fun _ => none

/-! ## Readiness -/

/-- The checks of `wait_until_ready` on the status of one service. -/
def serviceOk (svc status : Text) : Bool :=
  if ¬ "Up".toList <+: status then false
  else if svc ∈ healthchecked ∧ ¬ "healthy".toList <:+: status then false
  else true

/-- One poll of `wait_until_ready`. -/
def readyPoll (stdout : Text) : Bool :=
  let states := serviceStates stdout
  if stackServices.all fun svc => (states svc).isSome then
    stackServices.all fun svc => serviceOk svc ((states svc).getD [])
  else false

/-- `wait_until_ready`, with the outputs of the polls it makes before its deadline. -/
def waitUntilReady : List Text → Bool
  | [] => false
  | stdout :: polls => if readyPoll stdout then true else waitUntilReady polls

/-! ## What the output lists -/

/-- The status that the output lists for a service: that of the last entry with its name. -/
def Listed (stdout svc status : Text) : Prop :=
  ∃ before after, (splitlines stdout).filterMap stateEntry = before ++ (svc, status) :: after ∧
    svc ∉ after.map Prod.fst

/-- A dictionary filled in a loop holds the last entry of each key. -/
theorem foldl_putState_eq_some {entries : List (Text × Text)} {states : Text → Option Text}
    {svc status : Text} :
    entries.foldl putState states svc = some status ↔
      (∃ before after, entries = before ++ (svc, status) :: after ∧ svc ∉ after.map Prod.fst) ∨
        states svc = some status ∧ svc ∉ entries.map Prod.fst := by
  induction entries generalizing states with
  | nil => simp
  | cons e entries ih =>
    rw [List.foldl_cons, ih, putState]
    constructor
    · rintro (⟨before, after, rfl, hafter⟩ | ⟨hstate, hlater⟩)
      · exact Or.inl ⟨e :: before, after, rfl, hafter⟩
      · by_cases hname : svc = e.1
        · rw [hname, Function.update_self, Option.some.injEq] at hstate
          exact Or.inl ⟨[], entries, by rw [hname, ← hstate]; rfl, hlater⟩
        · rw [Function.update_of_ne hname] at hstate
          exact Or.inr ⟨hstate, by simpa using ⟨hname, by simpa using hlater⟩⟩
    · rintro (⟨before, after, hsplit, hafter⟩ | ⟨hstate, hlater⟩)
      · cases before with
        | nil =>
          cases hsplit
          exact Or.inr ⟨Function.update_self .., hafter⟩
        | cons b before =>
          obtain ⟨rfl, rfl⟩ := List.cons.inj hsplit
          exact Or.inl ⟨before, after, rfl, hafter⟩
      · rw [List.map_cons, List.mem_cons, not_or] at hlater
        exact Or.inr ⟨by rw [Function.update_of_ne hlater.1]; exact hstate, hlater.2⟩

/-- **The last line for a service wins.** -/
theorem serviceStates_eq_some_iff {stdout svc status : Text} :
    serviceStates stdout svc = some status ↔ Listed stdout svc status := by
  have hfold : ∀ (lines : List Text) (states : Text → Option Text),
      lines.foldl addState states = (lines.filterMap stateEntry).foldl putState states := by
    intro lines
    induction lines with
    | nil => exact fun _ => rfl
    | cons line lines ih =>
      intro states
      rw [List.foldl_cons, ih, List.filterMap_cons, addState]
      cases stateEntry line <;> rfl
  rw [serviceStates, hfold, foldl_putState_eq_some]
  simp [Listed]

theorem Listed.unique {stdout svc status status' : Text} (h : Listed stdout svc status)
    (h' : Listed stdout svc status') : status = status' := by
  rw [← serviceStates_eq_some_iff] at h h'
  exact Option.some.inj (h.symm.trans h')

theorem Listed.exists_iff {stdout svc status : Text} (h : Listed stdout svc status)
    {p : Text → Prop} : (∃ s, Listed stdout svc s ∧ p s) ↔ p status := by
  constructor
  · rintro ⟨s, hs, hp⟩
    rwa [← hs.unique h]
  · intro hp
    exact ⟨status, h, hp⟩

def IsUp (stdout svc : Text) : Prop :=
  ∃ status, Listed stdout svc status ∧ "Up".toList <+: status

def ReportedHealthy (stdout svc : Text) : Prop :=
  ∃ status, Listed stdout svc status ∧ "(healthy)".toList <:+: status

/-- The word that `wait_until_ready` looks for. -/
def SaysHealthy (stdout svc : Text) : Prop :=
  ∃ status, Listed stdout svc status ∧ "healthy".toList <:+: status

/-- Every service of the benchmark is up, and healthy where it has a health check. -/
def StackReady (stdout : Text) : Prop :=
  (∀ svc ∈ stackServices, IsUp stdout svc) ∧ ∀ svc ∈ healthchecked, ReportedHealthy stdout svc

theorem healthchecked_subset : ∀ svc ∈ healthchecked, svc ∈ stackServices := by
  decide +kernel

theorem ReportedHealthy.saysHealthy {stdout svc : Text} (h : ReportedHealthy stdout svc) :
    SaysHealthy stdout svc := by
  obtain ⟨status, hlisted, hreported⟩ := h
  have hword : "healthy".toList <:+: "(healthy)".toList := by decide +kernel
  exact ⟨status, hlisted, hword.trans hreported⟩

theorem serviceOk_iff {svc status : Text} :
    serviceOk svc status = true ↔
      "Up".toList <+: status ∧ (svc ∈ healthchecked → "healthy".toList <:+: status) := by
  unfold serviceOk
  split
  · simp_all
  · split <;> simp_all

/-- What `wait_until_ready` accepts. -/
theorem readyPoll_iff (stdout : Text) :
    readyPoll stdout = true ↔
      (∀ svc ∈ stackServices, IsUp stdout svc) ∧ ∀ svc ∈ healthchecked, SaysHealthy stdout svc := by
  have hget : ∀ {svc status}, Listed stdout svc status →
      (serviceStates stdout svc).getD [] = status := by
    intro svc status h
    rw [serviceStates_eq_some_iff.mpr h]
    rfl
  simp only [readyPoll, Bool.if_false_right, Bool.and_eq_true, List.all_eq_true, serviceOk_iff,
    decide_eq_true_eq]
  constructor
  · rintro ⟨hlisted, hok⟩
    have hstatus : ∀ svc ∈ stackServices,
        Listed stdout svc ((serviceStates stdout svc).getD []) := by
      intro svc hsvc
      obtain ⟨status, hstatus⟩ := Option.isSome_iff_exists.mp (hlisted svc hsvc)
      rw [hstatus]
      exact serviceStates_eq_some_iff.mp hstatus
    refine ⟨fun svc hsvc => ⟨_, hstatus svc hsvc, (hok svc hsvc).1⟩, fun svc hsvc => ?_⟩
    have hstack := healthchecked_subset svc hsvc
    exact ⟨_, hstatus svc hstack, (hok svc hstack).2 hsvc⟩
  · rintro ⟨hup, hword⟩
    constructor
    · intro svc hsvc
      obtain ⟨status, hlisted, -⟩ := hup svc hsvc
      rw [serviceStates_eq_some_iff.mpr hlisted]
      rfl
    · intro svc hsvc
      obtain ⟨status, hlisted, hstarts⟩ := hup svc hsvc
      rw [hget hlisted]
      refine ⟨hstarts, fun hchecked => ?_⟩
      exact hlisted.exists_iff.mp (hword svc hchecked)

theorem waitUntilReady_iff (polls : List Text) :
    waitUntilReady polls = true ↔ ∃ stdout ∈ polls, readyPoll stdout = true := by
  induction polls with
  | nil => simp [waitUntilReady]
  | cons stdout polls ih =>
    rw [waitUntilReady]
    split <;> simp_all

/-- The poll is right unless all services are up and every one with a health check has the
word `healthy` in its status, but not each has it as `(healthy)`. -/
theorem readyPoll_stackReady_iff (stdout : Text) :
    ((readyPoll stdout = true ↔ StackReady stdout) ↔
      ¬ ((∀ svc ∈ stackServices, IsUp stdout svc) ∧
        (∀ svc ∈ healthchecked, SaysHealthy stdout svc) ∧
        ∃ svc ∈ healthchecked, ¬ ReportedHealthy stdout svc)) := by
  rw [readyPoll_iff, StackReady]
  constructor
  · rintro hiff ⟨hup, hword, svc, hsvc, hnot⟩
    exact hnot ((hiff.mp ⟨hup, hword⟩).2 svc hsvc)
  · intro hnone
    constructor
    · rintro ⟨hup, hword⟩
      refine ⟨hup, fun svc hsvc => ?_⟩
      by_contra hnot
      exact hnone ⟨hup, hword, svc, hsvc, hnot⟩
    · rintro ⟨hup, hreported⟩
      exact ⟨hup, fun svc hsvc => (hreported svc hsvc).saysHealthy⟩

/-! ## The statuses of docker -/

inductive Health where
  | healthy
  | unhealthy
  | starting
  deriving DecidableEq, Repr

/-- What docker puts behind the status of a container with a health check. -/
def Health.marker : Health → Text
  | .healthy => "(healthy)".toList
  | .unhealthy => "(unhealthy)".toList
  | .starting => "(health: starting)".toList

/-- A status of `docker compose ps`: since when a container is up, in words that do not
speak of health, and its health; or some other state. -/
inductive Status where
  | up (since : Text) (wordless : ¬ "healthy".toList <:+: since) (health : Option Health)
  | other (state : Text) (notUp : ¬ "Up".toList <+: state)

def Status.text : Status → Text
  | .up since _ none => "Up".toList ++ since
  | .up since _ (some health) => "Up".toList ++ since ++ ' ' :: health.marker
  | .other state _ => state

/-- The health of a container that is up. -/
def Status.Reports (s : Status) (p : Option Health → Prop) : Prop :=
  match s with
  | .up _ _ health => p health
  | .other _ _ => False

theorem infix_cons_of_not_mem {word text : Text} {c : Char} (h : c ∉ word) :
    word <:+: c :: text ↔ word <:+: text := by
  rw [List.infix_cons_iff]
  constructor
  · rintro (hhead | hinfix)
    · cases word with
      | nil => exact List.nil_infix
      | cons a word =>
        rw [List.cons_prefix_cons] at hhead
        exact absurd List.mem_cons_self (hhead.1 ▸ h)
    · exact hinfix
  · exact Or.inr

/-- A word does not reach across a character that is not in it. -/
theorem infix_append_cons {word a b : Text} {c : Char} (h : c ∉ word) :
    word <:+: a ++ c :: b ↔ word <:+: a ∨ word <:+: b := by
  constructor
  · intro hinfix
    rcases List.infix_append_iff.mp hinfix with ha | hb | ⟨l₁, l₂, rfl, hl₁, hl₂⟩
    · exact Or.inl ha
    · exact Or.inr ((infix_cons_of_not_mem h).mp hb)
    · cases l₂ with
      | nil => exact Or.inl (by simpa using hl₁.isInfix)
      | cons d l₂ =>
        rw [List.cons_prefix_cons] at hl₂
        exact absurd (List.mem_append_right l₁ List.mem_cons_self) (hl₂.1 ▸ h)
  · rintro (ha | hb)
    · exact List.infix_append_of_infix_left ha
    · exact List.infix_append_of_infix_right ((infix_cons_of_not_mem h).mpr hb)

/-- A word with `healthy` in it, and no space, is in a status where it is in the marker. -/
theorem infix_up {word since : Text} (hword : "healthy".toList <:+: word) (hspace : ' ' ∉ word)
    (hU : 'U' ∉ word) (hp : 'p' ∉ word) (wordless : ¬ "healthy".toList <:+: since)
    (health : Option Health) :
    word <:+: (Status.up since wordless health).text ↔ ∃ h ∈ health, word <:+: h.marker := by
  have hsince : ¬ word <:+: "Up".toList ++ since := by
    intro hinfix
    change word <:+: 'U' :: 'p' :: since at hinfix
    rw [infix_cons_of_not_mem hU, infix_cons_of_not_mem hp] at hinfix
    exact wordless (hword.trans hinfix)
  cases health with
  | none => simpa [Status.text] using hsince
  | some health =>
    rw [Status.text, infix_append_cons hspace, or_iff_right hsince]
    simp

theorem saysHealthy_marker (health : Option Health) :
    (∃ h ∈ health, "healthy".toList <:+: h.marker) ↔
      health = some .healthy ∨ health = some .unhealthy := by
  have hmarker : ∀ h : Health, "healthy".toList <:+: h.marker ↔ h = .healthy ∨ h = .unhealthy := by
    intro h
    cases h <;> decide +kernel
  cases health with
  | none => simp
  | some h => simpa only [Option.mem_def, Option.some.injEq, exists_eq_left'] using hmarker h

theorem reported_marker (health : Option Health) :
    (∃ h ∈ health, "(healthy)".toList <:+: h.marker) ↔ health = some .healthy := by
  have hmarker : ∀ h : Health, "(healthy)".toList <:+: h.marker ↔ h = .healthy := by
    intro h
    cases h <;> decide +kernel
  cases health with
  | none => simp
  | some h => simpa only [Option.mem_def, Option.some.injEq, exists_eq_left'] using hmarker h

/-- A service that is listed with a status of docker. -/
theorem isUp_status {stdout svc : Text} {status : Status} (h : Listed stdout svc status.text) :
    IsUp stdout svc ↔ status.Reports fun _ => True := by
  have hstatus : IsUp stdout svc ↔ "Up".toList <+: status.text := h.exists_iff
  rw [hstatus]
  cases status with
  | up since wordless health => cases health <;> simp [Status.text, Status.Reports]
  | other state notUp => simpa [Status.text, Status.Reports] using notUp

theorem listed_word {stdout svc word : Text} {status : Status} (h : Listed stdout svc status.text)
    (hup : status.Reports fun _ => True) (hword : "healthy".toList <:+: word)
    (hspace : ' ' ∉ word) (hU : 'U' ∉ word) (hp : 'p' ∉ word) :
    (∃ s, Listed stdout svc s ∧ word <:+: s) ↔
      status.Reports fun health => ∃ m ∈ health, word <:+: m.marker := by
  rw [h.exists_iff]
  cases status with
  | up since wordless health => exact infix_up hword hspace hU hp wordless health
  | other state notUp => exact hup.elim

/-- **Docker's statuses.** Where each service is listed with one, the poll accepts a stack
that is up with every health check passed or failed; ready is one with each passed. -/
theorem docker_readiness {stdout : Text} (status : Text → Status)
    (hlisted : ∀ svc ∈ stackServices, Listed stdout svc (status svc).text) :
    (readyPoll stdout = true ↔
      (∀ svc ∈ stackServices, (status svc).Reports fun _ => True) ∧
        ∀ svc ∈ healthchecked,
          (status svc).Reports fun h => h = some .healthy ∨ h = some .unhealthy) ∧
    (StackReady stdout ↔
      (∀ svc ∈ stackServices, (status svc).Reports fun _ => True) ∧
        ∀ svc ∈ healthchecked, (status svc).Reports (· = some .healthy)) := by
  have hups : (∀ svc ∈ stackServices, IsUp stdout svc) ↔
      ∀ svc ∈ stackServices, (status svc).Reports fun _ => True :=
    forall₂_congr fun svc hsvc => isUp_status (hlisted svc hsvc)
  rw [readyPoll_iff, StackReady, hups]
  constructor
  · refine and_congr_right fun hup => forall₂_congr fun svc hsvc => ?_
    have hstack := healthchecked_subset svc hsvc
    have hword := listed_word (hlisted svc hstack) (hup svc hstack)
      (List.infix_refl "healthy".toList) (by decide +kernel) (by decide +kernel) (by decide +kernel)
    simp only [saysHealthy_marker] at hword
    exact hword
  · refine and_congr_right fun hup => forall₂_congr fun svc hsvc => ?_
    have hstack := healthchecked_subset svc hsvc
    have hword := listed_word (hlisted svc hstack) (hup svc hstack)
      (show "healthy".toList <:+: "(healthy)".toList by decide +kernel) (by decide +kernel)
      (by decide +kernel) (by decide +kernel)
    simp only [reported_marker] at hword
    exact hword

/-- A check that passed or failed has failed where it has not passed. -/
theorem Status.Reports.unhealthy_iff {s : Status}
    (h : s.Reports fun health => health = some .healthy ∨ health = some .unhealthy) :
    s.Reports (· = some .unhealthy) ↔ ¬ s.Reports (· = some .healthy) := by
  cases s with
  | up since wordless health => rcases h with rfl | rfl <;> simp [Status.Reports]
  | other state notUp => exact h.elim

theorem Status.Reports.imp {s : Status} {p q : Option Health → Prop} (h : s.Reports p)
    (hpq : ∀ health, p health → q health) : s.Reports q := by
  cases s with
  | up since wordless health => exact hpq health h
  | other state notUp => exact h

/-- On docker's statuses: unless a check has failed, with none under way. -/
theorem docker_stackReady_iff {stdout : Text} (status : Text → Status)
    (hlisted : ∀ svc ∈ stackServices, Listed stdout svc (status svc).text) :
    ((readyPoll stdout = true ↔ StackReady stdout) ↔
      ¬ ((∀ svc ∈ stackServices, (status svc).Reports fun _ => True) ∧
        (∀ svc ∈ healthchecked,
          (status svc).Reports fun h => h = some .healthy ∨ h = some .unhealthy) ∧
        ∃ svc ∈ healthchecked, (status svc).Reports (· = some .unhealthy))) := by
  obtain ⟨hpoll, hready⟩ := docker_readiness status hlisted
  rw [hpoll, hready]
  constructor
  · rintro hiff ⟨hup, hchecked, svc, hsvc, hfailed⟩
    have hpassed := (hiff.mp ⟨hup, hchecked⟩).2 svc hsvc
    exact (hchecked svc hsvc).unhealthy_iff.mp hfailed hpassed
  · intro hnone
    constructor
    · rintro ⟨hup, hchecked⟩
      refine ⟨hup, fun svc hsvc => ?_⟩
      by_contra hnot
      exact hnone ⟨hup, hchecked, svc, hsvc, (hchecked svc hsvc).unhealthy_iff.mpr hnot⟩
    · rintro ⟨hup, hpassed⟩
      exact ⟨hup, fun svc hsvc => (hpassed svc hsvc).imp fun _ => Or.inl⟩

/-- **When readiness means healthy.** For every output of `docker compose ps`, the poll
accepts exactly the stacks that are up and healthy, unless all services are up and every
one with a health check has the word `healthy` in its status, but not each has it as
`(healthy)`. Where the statuses are docker's, that is: unless all services are up, every
health check was passed or failed, and one was failed. -/
theorem readiness_iff (stdout : Text) :
    ((readyPoll stdout = true ↔ StackReady stdout) ↔
      ¬ ((∀ svc ∈ stackServices, IsUp stdout svc) ∧
        (∀ svc ∈ healthchecked, SaysHealthy stdout svc) ∧
        ∃ svc ∈ healthchecked, ¬ ReportedHealthy stdout svc)) ∧
    ∀ status : Text → Status,
      (∀ svc ∈ stackServices, Listed stdout svc (status svc).text) →
      ((readyPoll stdout = true ↔ StackReady stdout) ↔
        ¬ ((∀ svc ∈ stackServices, (status svc).Reports fun _ => True) ∧
          (∀ svc ∈ healthchecked,
            (status svc).Reports fun h => h = some .healthy ∨ h = some .unhealthy) ∧
          ∃ svc ∈ healthchecked, (status svc).Reports (· = some .unhealthy))) :=
  ⟨readyPoll_stackReady_iff stdout, fun status hlisted => docker_stackReady_iff status hlisted⟩

/-- A container that is up for two minutes. -/
def upTwoMinutes (health : Option Health) : Status :=
  .up " 2 minutes".toList (by decide +kernel) health

/-- The statuses of a stack where Kafka's health check is under way. -/
def kafkaStarts (svc : Text) : Status :=
  if svc = "kafka".toList then upTwoMinutes (some .starting)
  else if svc ∈ healthchecked then upTwoMinutes (some .healthy)
  else upTwoMinutes none

/-- The poll of a stack with these statuses. -/
def pollOf (status : Text → Status) : Text :=
  stackServices.flatMap fun svc => svc ++ '\t' :: (status svc).text ++ ['\n']

theorem kafkaStarts_readiness :
    (∀ svc ∈ stackServices, Listed (pollOf kafkaStarts) svc (kafkaStarts svc).text) ∧
      (readyPoll (pollOf kafkaStarts) = true ↔ StackReady (pollOf kafkaStarts)) := by
  have hstates : ∀ svc ∈ stackServices,
      serviceStates (pollOf kafkaStarts) svc = some (kafkaStarts svc).text := by decide +kernel
  have hlisted : ∀ svc ∈ stackServices, Listed (pollOf kafkaStarts) svc (kafkaStarts svc).text :=
    fun svc hsvc => serviceStates_eq_some_iff.mp (hstates svc hsvc)
  refine ⟨hlisted, ((readiness_iff _).2 kafkaStarts hlisted).mpr ?_⟩
  rintro ⟨-, hchecked, -⟩
  have hkafka := hchecked "kafka".toList (by decide +kernel)
  rw [kafkaStarts, if_pos rfl] at hkafka
  rcases hkafka with h | h <;> cases h

/-- The poll of a stack whose Kafka fails its health check. -/
def kafkaUnhealthy : Text :=
  "zookeeper\tUp 2 minutes (healthy)\n".toList ++ "kafka\tUp 2 minutes (unhealthy)\n".toList ++
    "redis\tUp 2 minutes (healthy)\n".toList ++ "matching-engine\tUp 2 minutes\n".toList ++
    "scoring-engine\tUp 2 minutes\n".toList

theorem kafkaUnhealthy_accepted :
    ¬ (readyPoll kafkaUnhealthy = true ↔ StackReady kafkaUnhealthy) := by
  have hready : readyPoll kafkaUnhealthy = true := by decide +kernel
  have hkafka : Listed kafkaUnhealthy "kafka".toList "Up 2 minutes (unhealthy)".toList :=
    serviceStates_eq_some_iff.mp (by decide +kernel)
  have hword : ¬ "(healthy)".toList <:+: "Up 2 minutes (unhealthy)".toList := by decide +kernel
  intro hiff
  obtain ⟨status, hlisted, hreported⟩ := (hiff.mp hready).2 "kafka".toList (by decide +kernel)
  rw [hlisted.unique hkafka] at hreported
  exact hword hreported

end TradePlat.Bench
