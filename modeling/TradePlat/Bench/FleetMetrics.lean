import Mathlib.Data.List.Forall2
import TradePlat.Bench.PythonText
import TradePlat.Bench.Summary
import TradePlat.Lib.Words

/-!
# The metrics of the fleet (`bot-fleet/main.py`, `run_loadtest.py`)

Every few seconds `metrics_reporter` prints a line with three counters and a rate,
between whatever else the fleet prints. The harness runs the fleet with its own
interpreter, and `parse_fleet_ops` and `parse_fleet_totals` search what was printed for
the labels of those lines. No label can start inside a figure, and no other line is
taken for one of these, so the figures are read back (`parse_output`).
-/

namespace TradePlat.Bench
open Binary64 Decimals Words

/-! ## The fleet -/

/-- The figures of a line of `metrics_reporter`. -/
structure Metrics where
  totalSent : Nat
  ops : Double
  totalDrops : Nat
  totalFails : Nat
  nonneg : Double.zero ≤ ops

/-- The line, where the interpreter prints numbers as long as the counters. -/
def metricsReporter (maxStrDigits : Nat) (m : Metrics) : Option Text := do
  let totalSent ← formatInt maxStrDigits m.totalSent
  let totalDrops ← formatInt maxStrDigits m.totalDrops
  let totalFails ← formatInt maxStrDigits m.totalFails
  return "[Metrics] Total Sent: ".toList ++ totalSent ++ " | OPS: ".toList ++ formatFloat m.ops ++
    "/sec | Drops: ".toList ++ totalDrops ++ " | Fails: ".toList ++ totalFails

def metricsMark : Text := "[Metrics]".toList

/-- What the fleet prints: a line of metrics, or other text without the mark of one. -/
inductive Printed where
  | metrics (m : Metrics)
  | other (text : Text) (unmarked : ¬ metricsMark <:+: text)

def Printed.text (maxStrDigits : Nat) : Printed → Option Text
  | .metrics m => metricsReporter maxStrDigits m
  | .other text _ => some text

/-- The output of the fleet, each text with the newline of its `print`. -/
def output (maxStrDigits : Nat) : List Printed → Option Text
  | [] => some []
  | p :: printed => do
    let text ← p.text maxStrDigits
    let rest ← output maxStrDigits printed
    return text ++ '\n' :: rest

/-! ## The harness -/

/-- `split("|", 1)[0].replace(",", "")`. -/
def figure (rest : Text) : Text := remove [','] (rest.takeWhile (· ≠ '|'))

/-- What `parse_fleet_ops` reads in one line. -/
def readOps (line : Text) : Option Double :=
  if ¬ metricsMark <:+: line ∨ ¬ "OPS:".toList <:+: line then none
  else
    (after "OPS:".toList line).bind fun rest => float (strip (remove "/sec".toList (figure rest)))

def parseFleetOps (stdout : Text) : List Double := (splitlines stdout).filterMap readOps

/-- The keys of the totals. -/
inductive TotalsKey where
  | sent
  | drops
  | fails
  deriving DecidableEq, Repr

def FleetTotals.put (totals : FleetTotals) (n : Int) : TotalsKey → FleetTotals
  | .sent => { totals with sent := some n }
  | .drops => { totals with drops := some n }
  | .fails => { totals with fails := some n }

def totalsFields : List (TotalsKey × Text) :=
  [(.sent, "Total Sent:".toList), (.drops, "Drops:".toList), (.fails, "Fails:".toList)]

/-- The loop over the fields of a line. An exception leaves it with the totals so far. -/
def readFields (maxStrDigits : Nat) (line : Text) :
    FleetTotals → List (TotalsKey × Text) → FleetTotals
  | totals, [] => totals
  | totals, (key, field) :: fields =>
    if field <:+: line then
      match (after field line).bind fun rest => int maxStrDigits (strip (figure rest)) with
      | none => totals
      | some n => readFields maxStrDigits line (totals.put n key) fields
    else readFields maxStrDigits line totals fields

/-- What `parse_fleet_totals` makes of one line. -/
def addTotals (maxStrDigits : Nat) (totals : FleetTotals) (line : Text) : FleetTotals :=
  if metricsMark <:+: line then readFields maxStrDigits line totals totalsFields else totals

def noTotals : FleetTotals := ⟨none, none, none⟩

def parseFleetTotals (maxStrDigits : Nat) (stdout : Text) : FleetTotals :=
  (splitlines stdout).foldl (addTotals maxStrDigits) noTotals

/-! ## A figure in its line -/

section Figure
variable {shown tail : Text}

/-- The figure of a field reaches to the next bar. -/
theorem figure_eq (h : '|' ∉ shown) (htail : tail = [] ∨ tail.head? = some '|') :
    figure (shown ++ tail) = shown.filter (· ≠ ',') := by
  have hshown : ∀ c ∈ shown, decide (c ≠ '|') = true := by
    intro c hc
    rw [decide_eq_true_eq]
    rintro rfl
    exact h hc
  rw [figure, remove_singleton, List.takeWhile_append_of_pos hshown]
  cases tail with
  | nil => simp
  | cons c tail =>
    rcases htail with htail | htail
    · cases htail
    · rw [Option.some.inj htail, List.takeWhile_cons_of_neg (by simp), List.append_nil]

/-- A counter, with blanks around it. -/
theorem int_figure {maxStrDigits n : Nat} (h : formatInt maxStrDigits n = some shown)
    {blanks : Text} (hblanks : blanks = [] ∨ blanks = [' '])
    (htail : tail = [] ∨ tail.head? = some '|') :
    int maxStrDigits (strip (figure ([' '] ++ (shown ++ blanks) ++ tail))) = some (n : Int) := by
  have hbar : '|' ∉ [' '] ++ (shown ++ blanks) := by
    have hshown : '|' ∉ shown := notMem_formatInt (by decide) h
    rcases hblanks with rfl | rfl <;> simpa using hshown
  have hleft : ∀ c ∈ [' '], isSpace c = true := List.all_eq_true.mp (by decide)
  have hright : ∀ c ∈ blanks, isSpace c = true :=
    List.all_eq_true.mp (by rcases hblanks with rfl | rfl <;> decide)
  have hblank : blanks.filter (· ≠ ',') = blanks := by
    rcases hblanks with rfl | rfl <;> rfl
  unfold formatInt at h
  split at h
  · cases h
  · rename_i hlimit
    have hspace : ∀ c ∈ digits n, isSpace c = false := fun c hc =>
      isSpace_of_isFigure (by rw [isFigure, isDigit_of_mem_digits hc, Bool.true_or])
    have hdigits : shown.filter (· ≠ ',') = digits n := by
      rw [← Option.some.inj h, filter_grouped (notMem_digits (by decide))]
    rw [figure_eq hbar htail, List.filter_append, List.filter_append, hdigits, hblank,
      show [' '].filter (· ≠ ',') = [' '] from rfl,
      strip_padded hleft hright (digits_ne_nil n) hspace]
    exact int_digits hlimit

/-- A rate, with its unit. -/
theorem float_figure {x : Double} (h : ¬ x.IsNaN) (rest : Text) :
    ∃ y, float (strip (remove "/sec".toList
      (figure ([' '] ++ (formatFloat x ++ "/sec ".toList) ++ '|' :: rest)))) = some y ∧
        x.IsRounded y := by
  have hfigures : ∀ c ∈ formatFloat x, isFigure c = true := fun _ => isFigure_of_mem_formatFloat
  have hblank : ∀ c ∈ [' '], isSpace c = true := List.all_eq_true.mp (by decide)
  have hbar : '|' ∉ [' '] ++ (formatFloat x ++ "/sec ".toList) := by
    rw [List.mem_append, List.mem_append, not_or, not_or]
    exact ⟨by decide, notMem_formatFloat (by decide) x, by decide⟩
  have hslash : '/' ∉ [' '] ++ (formatFloat x).filter (· ≠ ',') := by
    rw [List.mem_append, not_or]
    exact ⟨by decide, fun hmem => notMem_formatFloat (by decide) x (List.mem_of_mem_filter hmem)⟩
  have hspace : ∀ c ∈ (formatFloat x).filter (· ≠ ','), isSpace c = false := fun c hc =>
    isSpace_of_isFigure (hfigures c (List.mem_of_mem_filter hc))
  obtain ⟨y, hy, hround⟩ := float_formatFloat h
  have hne : (formatFloat x).filter (· ≠ ',') ≠ [] := by
    intro hnil
    rw [hnil] at hy
    cases hy
  refine ⟨y, ?_, hround⟩
  rw [figure_eq hbar (Or.inr rfl), List.filter_append, List.filter_append,
    show [' '].filter (· ≠ ',') = [' '] from rfl,
    show "/sec ".toList.filter (· ≠ ',') = "/sec".toList ++ [' '] by decide,
    ← List.append_assoc, show "/sec".toList = '/' :: "sec".toList by decide, remove_append hslash,
    remove_of_notMem (by decide), List.append_assoc, strip_padded hblank hblank hne hspace]
  exact hy

end Figure

/-! ## A line of metrics -/

section Line
variable {maxStrDigits : Nat} {m : Metrics} {line : Text}

/-- The parts of a line. -/
theorem metricsReporter_eq (h : metricsReporter maxStrDigits m = some line) :
    ∃ totalSent totalDrops totalFails,
      formatInt maxStrDigits m.totalSent = some totalSent ∧
      formatInt maxStrDigits m.totalDrops = some totalDrops ∧
      formatInt maxStrDigits m.totalFails = some totalFails ∧
      line = "[Metrics] Total Sent: ".toList ++ totalSent ++ " | OPS: ".toList ++
        formatFloat m.ops ++ "/sec | Drops: ".toList ++ totalDrops ++ " | Fails: ".toList ++
          totalFails := by
  simp only [metricsReporter, Option.bind_eq_bind, Option.bind_eq_some_iff, Option.pure_def,
    Option.some.injEq] at h
  obtain ⟨totalSent, hsent, totalDrops, hdrops, totalFails, hfails, rfl⟩ := h
  exact ⟨totalSent, totalDrops, totalFails, hsent, hdrops, hfails, rfl⟩

theorem marked_metricsReporter (h : metricsReporter maxStrDigits m = some line) :
    metricsMark <:+: line := by
  obtain ⟨totalSent, totalDrops, totalFails, -, -, -, rfl⟩ := metricsReporter_eq h
  have hmark : metricsMark <+: "[Metrics] Total Sent: ".toList := by decide
  simp only [List.append_assoc]
  exact (hmark.trans (List.prefix_append _ _)).isInfix

/-! The labels, each after a text without its first letter. -/

theorem totalSent_label : "[Metrics] Total Sent: ".toList =
    "[Metrics] ".toList ++ ('T' :: "otal Sent:".toList ++ [' ']) := by simp

theorem ops_label : " | OPS: ".toList = " | ".toList ++ ('O' :: "PS:".toList ++ [' ']) := by
  simp

theorem drops_label :
    "/sec | Drops: ".toList = "/sec | ".toList ++ ('D' :: "rops:".toList ++ [' ']) := by
  simp

theorem fails_label : " | Fails: ".toList = " | ".toList ++ ('F' :: "ails:".toList ++ [' ']) := by
  simp

theorem after_totalSent (h : metricsReporter maxStrDigits m = some line) :
    ∃ shown tail, formatInt maxStrDigits m.totalSent = some shown ∧ tail.head? = some '|' ∧
      after "Total Sent:".toList line = some ([' '] ++ (shown ++ [' ']) ++ tail) := by
  obtain ⟨totalSent, totalDrops, totalFails, hsent, -, -, rfl⟩ := metricsReporter_eq h
  have hbar : " | OPS: ".toList = [' '] ++ '|' :: " OPS: ".toList := by simp
  refine ⟨totalSent, '|' :: (" OPS: ".toList ++ formatFloat m.ops ++ "/sec | Drops: ".toList ++
    totalDrops ++ " | Fails: ".toList ++ totalFails), hsent, rfl, ?_⟩
  have hfront : 'T' ∉ "[Metrics] ".toList := by decide
  rw [show "Total Sent:".toList = 'T' :: "otal Sent:".toList by decide]
  refine after_eq_some hfront ?_
  rw [totalSent_label, hbar]
  simp only [List.append_assoc, List.cons_append]

theorem after_ops (h : metricsReporter maxStrDigits m = some line) :
    ∃ rest, after "OPS:".toList line =
      some ([' '] ++ (formatFloat m.ops ++ "/sec ".toList) ++ '|' :: rest) := by
  obtain ⟨totalSent, totalDrops, totalFails, hsent, -, -, rfl⟩ := metricsReporter_eq h
  have hbar : "/sec | Drops: ".toList = "/sec ".toList ++ '|' :: " Drops: ".toList := by
    simp
  have hfront : 'O' ∉ "[Metrics] Total Sent: ".toList ++ (totalSent ++ " | ".toList) := by
    rw [List.mem_append, List.mem_append, not_or, not_or]
    exact ⟨by simp, notMem_formatInt (by decide) hsent, by decide⟩
  refine ⟨" Drops: ".toList ++ totalDrops ++ " | Fails: ".toList ++ totalFails, ?_⟩
  rw [show "OPS:".toList = 'O' :: "PS:".toList by decide]
  refine after_eq_some hfront ?_
  rw [ops_label, hbar]
  simp only [List.append_assoc, List.cons_append]

theorem after_drops (h : metricsReporter maxStrDigits m = some line) :
    ∃ shown tail, formatInt maxStrDigits m.totalDrops = some shown ∧ tail.head? = some '|' ∧
      after "Drops:".toList line = some ([' '] ++ (shown ++ [' ']) ++ tail) := by
  obtain ⟨totalSent, totalDrops, totalFails, hsent, hdrops, -, rfl⟩ := metricsReporter_eq h
  have hbar : " | Fails: ".toList = [' '] ++ '|' :: " Fails: ".toList := by simp
  have hfront : 'D' ∉ "[Metrics] Total Sent: ".toList ++ (totalSent ++ (" | OPS: ".toList ++
      (formatFloat m.ops ++ "/sec | ".toList))) := by
    simp only [List.mem_append, not_or]
    exact ⟨by simp, notMem_formatInt (by decide) hsent, by decide,
      notMem_formatFloat (by decide) _, by decide⟩
  refine ⟨totalDrops, '|' :: (" Fails: ".toList ++ totalFails), hdrops, rfl, ?_⟩
  rw [show "Drops:".toList = 'D' :: "rops:".toList by decide]
  refine after_eq_some hfront ?_
  rw [drops_label, hbar]
  simp only [List.append_assoc, List.cons_append]

theorem after_fails (h : metricsReporter maxStrDigits m = some line) :
    ∃ shown, formatInt maxStrDigits m.totalFails = some shown ∧
      after "Fails:".toList line = some ([' '] ++ (shown ++ []) ++ []) := by
  obtain ⟨totalSent, totalDrops, totalFails, hsent, hdrops, hfails, rfl⟩ := metricsReporter_eq h
  have hfront : 'F' ∉ "[Metrics] Total Sent: ".toList ++ (totalSent ++ (" | OPS: ".toList ++
      (formatFloat m.ops ++ ("/sec | Drops: ".toList ++ (totalDrops ++ " | ".toList))))) := by
    simp only [List.mem_append, not_or]
    exact ⟨by simp, notMem_formatInt (by decide) hsent, by decide,
      notMem_formatFloat (by decide) _, by simp, notMem_formatInt (by decide) hdrops, by decide⟩
  refine ⟨totalFails, hfails, ?_⟩
  rw [show "Fails:".toList = 'F' :: "ails:".toList by decide]
  refine after_eq_some hfront ?_
  rw [fails_label]
  simp only [List.append_assoc, List.cons_append, List.append_nil]

theorem readOps_line (h : metricsReporter maxStrDigits m = some line) :
    ∃ y, readOps line = some y ∧ m.ops.IsRounded y := by
  obtain ⟨rest, hafter⟩ := after_ops h
  have htest : ¬ (¬ metricsMark <:+: line ∨ ¬ "OPS:".toList <:+: line) := by
    rw [not_or, not_not, not_not]
    exact ⟨marked_metricsReporter h, infix_of_after hafter⟩
  rw [readOps, if_neg htest, hafter, Option.bind_some]
  exact float_figure m.nonneg.2.1 rest

/-- One turn of the loop over the fields. -/
theorem readFields_cons {key : TotalsKey} {field rest : Text} {n : Int} (totals : FleetTotals)
    (fields : List (TotalsKey × Text)) (hafter : after field line = some rest)
    (hint : int maxStrDigits (strip (figure rest)) = some n) :
    readFields maxStrDigits line totals ((key, field) :: fields) =
      readFields maxStrDigits line (totals.put n key) fields := by
  rw [readFields, if_pos (infix_of_after hafter), hafter, Option.bind_some, hint]

def Metrics.totals (m : Metrics) : FleetTotals :=
  ⟨some (m.totalSent : Int), some (m.totalDrops : Int), some (m.totalFails : Int)⟩

/-- Nothing is left of the totals of earlier lines. -/
theorem addTotals_line (h : metricsReporter maxStrDigits m = some line) (totals : FleetTotals) :
    addTotals maxStrDigits totals line = m.totals := by
  obtain ⟨sent, sentTail, hsent, hsentTail, hafterSent⟩ := after_totalSent h
  obtain ⟨drops, dropsTail, hdrops, hdropsTail, hafterDrops⟩ := after_drops h
  obtain ⟨fails, hfails, hafterFails⟩ := after_fails h
  rw [addTotals, if_pos (marked_metricsReporter h), totalsFields,
    readFields_cons _ _ hafterSent (int_figure hsent (Or.inr rfl) (Or.inr hsentTail)),
    readFields_cons _ _ hafterDrops (int_figure hdrops (Or.inr rfl) (Or.inr hdropsTail)),
    readFields_cons _ _ hafterFails (int_figure hfails (Or.inl rfl) (Or.inl rfl))]
  rfl

theorem isFigure_of_mem_lineBreaks {c : Char} (h : c ∈ lineBreaks) : isFigure c = false := by
  have hbreaks : ∀ c ∈ lineBreaks, (!isFigure c) = true := List.all_eq_true.mp (by decide)
  simpa using hbreaks c h

theorem notMem_lineBreaks_of_all {text : Text}
    (h : text.all (fun c => !decide (c ∈ lineBreaks)) = true) : ∀ c ∈ text, c ∉ lineBreaks :=
  fun c hc => by simpa using List.all_eq_true.mp h c hc

/-- A line of metrics is one line. -/
theorem splitlines_metricsReporter (h : metricsReporter maxStrDigits m = some line) :
    splitlines (line ++ ['\n']) = [line] := by
  obtain ⟨totalSent, totalDrops, totalFails, hsent, hdrops, hfails, rfl⟩ := metricsReporter_eq h
  refine splitlines_line ?_
  simp only [List.append_assoc, List.forall_mem_append]
  refine ⟨notMem_lineBreaks_of_all rfl, fun c hc hbreak => ?_,
    notMem_lineBreaks_of_all rfl, fun c hc hbreak => ?_,
    notMem_lineBreaks_of_all rfl, fun c hc hbreak => ?_,
    notMem_lineBreaks_of_all rfl, fun c hc hbreak => ?_⟩
  · exact notMem_formatInt (isFigure_of_mem_lineBreaks hbreak) hsent hc
  · exact notMem_formatFloat (isFigure_of_mem_lineBreaks hbreak) _ hc
  · exact notMem_formatInt (isFigure_of_mem_lineBreaks hbreak) hdrops hc
  · exact notMem_formatInt (isFigure_of_mem_lineBreaks hbreak) hfails hc

end Line

/-! ## The output -/

section Output
variable {maxStrDigits : Nat} {text line stdout : Text}

/-- No line of another text has the mark. -/
theorem unmarked_of_mem_splitlines (h : ¬ metricsMark <:+: text)
    (hline : line ∈ splitlines (text ++ ['\n'])) : ¬ metricsMark <:+: line := by
  intro hmark
  have hinfix := hmark.trans (infix_of_mem_splitlines hline)
  rcases List.infix_concat_iff.mp hinfix with hsuffix | hinfix
  · rcases List.suffix_concat_iff.mp hsuffix with hnil | ⟨front, hfront, -⟩
    · exact absurd hnil (by decide)
    · have hnewline : '\n' ∈ metricsMark := by
        rw [hfront]
        exact List.mem_concat_self
      exact absurd hnewline (by decide)
  · exact h hinfix

theorem readOps_other (h : ¬ metricsMark <:+: text) :
    (splitlines (text ++ ['\n'])).filterMap readOps = [] := by
  rw [List.filterMap_eq_nil_iff]
  intro line hline
  rw [readOps, if_pos (Or.inl (unmarked_of_mem_splitlines h hline))]

theorem addTotals_other (h : ¬ metricsMark <:+: text) (totals : FleetTotals) :
    (splitlines (text ++ ['\n'])).foldl (addTotals maxStrDigits) totals = totals := by
  have hlines : ∀ lines : List Text, (∀ line ∈ lines, ¬ metricsMark <:+: line) →
      lines.foldl (addTotals maxStrDigits) totals = totals := by
    intro lines hlines
    induction lines with
    | nil => rfl
    | cons line lines ih =>
      rw [List.forall_mem_cons] at hlines
      rw [List.foldl_cons, addTotals, if_neg hlines.1]
      exact ih hlines.2
  exact hlines _ fun line hline => unmarked_of_mem_splitlines h hline

/-- The lines of metrics of an output, in order. -/
def metricsOf : List Printed → List Metrics
  | [] => []
  | .metrics m :: printed => m :: metricsOf printed
  | .other _ _ :: printed => metricsOf printed

/-- An output, text by text. -/
theorem output_cons {p : Printed} {printed : List Printed}
    (h : output maxStrDigits (p :: printed) = some stdout) :
    ∃ text rest, p.text maxStrDigits = some text ∧ output maxStrDigits printed = some rest ∧
      splitlines stdout = splitlines (text ++ ['\n']) ++ splitlines rest := by
  simp only [output, Option.bind_eq_bind, Option.bind_eq_some_iff, Option.pure_def,
    Option.some.injEq] at h
  obtain ⟨text, htext, rest, hrest, rfl⟩ := h
  exact ⟨text, rest, htext, hrest, splitlines_append text rest⟩

theorem parseFleetOps_output {printed : List Printed}
    (h : output maxStrDigits printed = some stdout) :
    List.Forall₂ (fun m y => m.ops.IsRounded y) (metricsOf printed) (parseFleetOps stdout) := by
  induction printed generalizing stdout with
  | nil =>
    rw [← Option.some.inj h]
    exact .nil
  | cons p printed ih =>
    obtain ⟨text, rest, htext, hrest, hlines⟩ := output_cons h
    rw [parseFleetOps, hlines, List.filterMap_append]
    cases p with
    | metrics m =>
      obtain ⟨y, hread, hround⟩ := readOps_line htext
      rw [splitlines_metricsReporter htext, List.filterMap_cons_some hread]
      exact .cons hround (ih hrest)
    | other text hother =>
      cases htext
      rw [readOps_other hother]
      exact ih hrest

theorem foldl_addTotals_output {printed : List Printed}
    (h : output maxStrDigits printed = some stdout) (totals : FleetTotals) :
    (splitlines stdout).foldl (addTotals maxStrDigits) totals =
      ((metricsOf printed).getLast?.map Metrics.totals).getD totals := by
  induction printed generalizing stdout totals with
  | nil =>
    rw [← Option.some.inj h]
    rfl
  | cons p printed ih =>
    obtain ⟨text, rest, htext, hrest, hlines⟩ := output_cons h
    rw [hlines, List.foldl_append]
    cases p with
    | metrics m =>
      rw [splitlines_metricsReporter htext, List.foldl_cons, List.foldl_nil, addTotals_line htext,
        ih hrest, metricsOf, List.getLast?_cons]
      cases (metricsOf printed).getLast? <;> rfl
    | other text hother =>
      cases htext
      rw [addTotals_other hother]
      exact ih hrest totals

theorem isSome_metricsReporter_iff {m : Metrics} :
    (metricsReporter maxStrDigits m).isSome ↔
      Fits maxStrDigits m.totalSent ∧ Fits maxStrDigits m.totalDrops ∧
        Fits maxStrDigits m.totalFails := by
  rw [← isSome_formatInt_iff, ← isSome_formatInt_iff, ← isSome_formatInt_iff]
  unfold metricsReporter
  cases formatInt maxStrDigits m.totalSent <;> cases formatInt maxStrDigits m.totalDrops <;>
    cases formatInt maxStrDigits m.totalFails <;> simp

/-- Every line is printed that the interpreter has no limit against. -/
theorem isSome_output_iff {printed : List Printed} :
    (output maxStrDigits printed).isSome ↔ ∀ m ∈ metricsOf printed,
      Fits maxStrDigits m.totalSent ∧ Fits maxStrDigits m.totalDrops ∧
        Fits maxStrDigits m.totalFails := by
  induction printed with
  | nil => simp [output, metricsOf]
  | cons p printed ih =>
    have hcons : (output maxStrDigits (p :: printed)).isSome ↔
        (p.text maxStrDigits).isSome ∧ (output maxStrDigits printed).isSome := by
      rw [output]
      cases p.text maxStrDigits <;> cases output maxStrDigits printed <;> simp
    rw [hcons, ih]
    cases p with
    | metrics m =>
      rw [metricsOf, List.forall_mem_cons, ← isSome_metricsReporter_iff]
      rfl
    | other text _ => simp [Printed.text, metricsOf]

/-- **The harness reads back what the fleet printed**: the counters of the last line of
metrics, and the rates of all of them in order, each the integer it was rounded to. -/
theorem parse_output {printed : List Printed} (h : output maxStrDigits printed = some stdout) :
    parseFleetTotals maxStrDigits stdout =
        ((metricsOf printed).getLast?.map Metrics.totals).getD noTotals ∧
      List.Forall₂ (fun m y => m.ops.IsRounded y) (metricsOf printed) (parseFleetOps stdout) :=
  ⟨foldl_addTotals_output h noTotals, parseFleetOps_output h⟩

/-- Two lines of metrics among others, with a rate halfway between two integers. -/
def shortRun : List Printed :=
  [.other "Spawning 1 bots...".toList (by decide),
    .metrics ⟨1234567, ⟨0x410E240C00000000⟩, 0, 0, by decide⟩,
    .other "OPS: 1\rFails: none".toList (by decide),
    .metrics ⟨2469134, ⟨0x410E240C00000000⟩, 1000, 12, by decide⟩]

theorem shortRun_readBack :
    ∃ stdout, output 4300 shortRun = some stdout ∧
      parseFleetTotals 4300 stdout = ⟨some 2469134, some 1000, some 12⟩ ∧
      List.Forall₂ (fun m y => m.ops.IsRounded y) (metricsOf shortRun) (parseFleetOps stdout) := by
  obtain ⟨stdout, h⟩ : ∃ stdout, output 4300 shortRun = some stdout :=
    Option.isSome_iff_exists.mp (by decide +kernel)
  obtain ⟨htotals, hops⟩ := parse_output h
  exact ⟨stdout, h, htotals, hops⟩

end Output

end TradePlat.Bench
