import Mathlib.Data.List.Infix
import Mathlib.Data.Set.Finite.Basic

/-!
# File trees

POSIX paths and what a process does to a tree of directories and files.

A path that is written out is split into components (`components`) and read from the
root, one component after the other (`enter`): an empty component and `.` stay, `..`
goes up, and any other one goes down. There are no links, so the directory it names is a
function of the text (`resolve`). `reduced` is the same reading from a directory that is
not known: the number of times the path leaves it, and the names it then goes down
(`foldl_enter`).

A `FileTree` maps the paths to directories and files, and everything in it lies in a
directory. A call reads and changes the tree and may raise, and what it did before it
raised stays done. `Steps R call` says that the call takes every tree to an `R`-related
one; for a preorder `R` it follows the structure of the call. The calls of this library
leave alone what lies outside of the directory they are given (`Keeps`).
-/

namespace TradePlat.Files

abbrev Name := List Char

/-- The names from the root down. -/
abbrev Path := List Name

/-! ## Paths -/

/-- `s.split("/")`. -/
def components : List Char → List Name
  | [] => [[]]
  | c :: cs =>
    if c = '/' then [] :: components cs
    else
      match components cs with
      | [] => [[c]]
      | name :: names => (c :: name) :: names

/-- The root is its own parent. -/
def enter (path : Path) (name : Name) : Path :=
  if name = [] ∨ name = ['.'] then path
  else if name = ['.', '.'] then path.dropLast
  else path ++ [name]

def resolve (s : List Char) : Path := (components s).foldl enter []

/-- `os.path.join(a, b)`. -/
def join (a b : List Char) : List Char :=
  if b.head? = some '/' then b
  else if a = [] ∨ a.getLast? = some '/' then a ++ b
  else a ++ '/' :: b

theorem components_ne_nil (s : List Char) : components s ≠ [] := by
  cases s with
  | nil => simp [components]
  | cons c cs =>
    simp only [components]
    split
    · simp
    · split <;> simp

theorem components_append_slash (a b : List Char) :
    components (a ++ '/' :: b) = components a ++ components b := by
  induction a with
  | nil => simp [components]
  | cons c a ih =>
    by_cases hc : c = '/'
    · simp [components, hc, ih]
    · simp only [List.cons_append, components, if_neg hc, ih]
      cases hread : components a with
      | nil => exact absurd hread (components_ne_nil a)
      | cons name names => rfl

/-- The second path of a join is read from the first one, or from the root. -/
theorem resolve_join (a b : List Char) :
    resolve (join a b) =
      (components b).foldl enter (if b.head? = some '/' then [] else resolve a) := by
  unfold join
  split
  · rfl
  · split
    · next h =>
      rcases h with rfl | h
      · rfl
      · obtain ⟨a, rfl⟩ : ∃ a', a = a' ++ ['/'] := by
          exact List.getLast?_eq_some_iff.1 h
        rw [List.append_assoc, List.singleton_append]
        simp [resolve, components_append_slash, components, enter]
    · simp [resolve, components_append_slash]

/-- One component of `reduced`. -/
def reduce (read : Nat × List Name) (name : Name) : Nat × List Name :=
  if name = [] ∨ name = ['.'] then read
  else if name = ['.', '.'] then
    if read.2 = [] then (read.1 + 1, []) else (read.1, read.2.dropLast)
  else (read.1, read.2 ++ [name])

/-- How often a path leaves the directory it is read from, and the names that it then
goes down. -/
def reduced (names : List Name) : Nat × List Name := names.foldl reduce (0, [])

theorem enter_reduce (path : Path) (read : Nat × List Name) (name : Name) :
    enter (path.take (path.length - read.1) ++ read.2) name =
      path.take (path.length - (reduce read name).1) ++ (reduce read name).2 := by
  unfold enter reduce
  split
  · rfl
  · split
    · split
      · next hempty =>
        rw [hempty, List.append_nil, List.append_nil, List.dropLast_eq_take, List.take_take,
          List.length_take]
        congr 1
        omega
      · next hnames => rw [List.dropLast_append_of_ne_nil hnames]
    · rw [List.append_assoc]

/-- The directory that a path names, from any directory it is read from. -/
theorem foldl_enter (path : Path) (names : List Name) :
    names.foldl enter path = path.take (path.length - (reduced names).1) ++ (reduced names).2 := by
  have hread : ∀ (names : List Name) (read : Nat × List Name),
      names.foldl enter (path.take (path.length - read.1) ++ read.2) =
        path.take (path.length - (names.foldl reduce read).1) ++ (names.foldl reduce read).2 := by
    intro names
    induction names with
    | nil => intro read; rfl
    | cons name names ih =>
      intro read
      rw [List.foldl_cons, List.foldl_cons, enter_reduce, ih]
  simpa [reduced] using hread names (0, [])

theorem prefix_take_append (path names : Path) (n : Nat) :
    path <+: path.take n ++ names ↔ path.drop n <+: names :=
  calc path <+: path.take n ++ names
      ↔ path.take n ++ path.drop n <+: path.take n ++ names := by rw [List.take_append_drop]
    _ ↔ path.drop n <+: names := List.prefix_append_right_inj _

theorem eq_take_append (path names : Path) (n : Nat) :
    path = path.take n ++ names ↔ path.drop n = names :=
  calc path = path.take n ++ names
      ↔ path.take n ++ path.drop n = path.take n ++ names := by rw [List.take_append_drop]
    _ ↔ path.drop n = names := List.append_right_inj _

/-! ## Trees -/

inductive Node where
  | directory
  | file (data : List UInt8)
  deriving DecidableEq, Repr

/-- A finite tree of directories and files. -/
structure FileTree where
  node : Path → Option Node
  root : node [] = some .directory
  parents : ∀ path, node path ≠ none → node path.dropLast = some .directory
  finite : {path | node path ≠ none}.Finite

/-- All that lies below a directory goes. -/
def FileTree.clear (t : FileTree) (dir : Path) : FileTree where
  node path := if dir <+: path ∧ path ≠ dir then none else t.node path
  root := by simp [t.root]
  parents path hpath := by
    split at hpath
    · exact absurd rfl hpath
    · next houtside =>
      rw [if_neg, t.parents path hpath]
      rintro ⟨hdir, hne⟩
      refine houtside ⟨hdir.trans path.dropLast_prefix, ?_⟩
      rintro rfl
      exact hne (path.dropLast_prefix.eq_of_length_le hdir.length_le)
  finite := t.finite.subset fun path hpath hnone => hpath (by simp [hnone])

/-- A file or directory goes, with all that lies below it. The root stays. -/
def FileTree.cut (t : FileTree) (top : Path) : FileTree where
  node path := if top ≠ [] ∧ top <+: path then none else t.node path
  root := by simp [t.root]
  parents path hpath := by
    split at hpath
    · exact absurd rfl hpath
    · next houtside =>
      rw [if_neg, t.parents path hpath]
      exact fun htop => houtside ⟨htop.1, htop.2.trans path.dropLast_prefix⟩
  finite := t.finite.subset fun path hpath hnone => hpath (by simp [hnone])

/-- A new directory, or a new or rewritten file. -/
def FileTree.put (t : FileTree) (path : Path) (node : Node)
    (hparent : t.node path.dropLast = some .directory) (hfree : t.node path ≠ some .directory) :
    FileTree where
  node other := if other = path then some node else t.node other
  root := by
    rw [if_neg, t.root]
    rintro rfl
    exact hfree t.root
  parents other hother := by
    have hparents : t.node other.dropLast = some .directory := by
      split at hother
      · next h => rwa [h]
      · exact t.parents other hother
    rw [if_neg, hparents]
    rintro rfl
    exact hfree hparents
  finite := (t.finite.insert path).subset fun other hother => by
    by_cases h : other = path
    · exact .inl h
    · exact .inr fun hnone => hother (by simp [h, hnone])

/-- The tree of some directories and all that they lie in. -/
def FileTree.ofDirectories (dirs : List Path) : FileTree where
  node path := if path = [] ∨ ∃ dir ∈ dirs, path <+: dir then some .directory else none
  root := by simp
  parents path hpath := by
    have habove : path = [] ∨ ∃ dir ∈ dirs, path <+: dir :=
      Decidable.by_contra fun hno => hpath (if_neg hno)
    refine if_pos ?_
    rcases habove with rfl | ⟨dir, hdir, hpath⟩
    · exact .inl rfl
    · exact .inr ⟨dir, hdir, path.dropLast_prefix.trans hpath⟩
  finite := by
    refine ((dirs.flatMap List.inits).finite_toSet.insert []).subset fun path hpath => ?_
    have habove : path = [] ∨ ∃ dir ∈ dirs, path <+: dir :=
      Decidable.by_contra fun hno => hpath (if_neg hno)
    rcases habove with rfl | ⟨dir, hdir, hpath⟩
    · exact .inl rfl
    · exact .inr (List.mem_flatMap.2 ⟨dir, hdir, (List.mem_inits _ _).2 hpath⟩)

theorem ofDirectories_node {dirs : List Path} {path : Path} :
    (FileTree.ofDirectories dirs).node path = some .directory ↔
      path = [] ∨ ∃ dir ∈ dirs, path <+: dir := by
  simp only [FileTree.ofDirectories, ite_eq_left_iff, reduceCtorEq, imp_false, not_not]

/-- There is always one more name. -/
theorem exists_fresh (names : List Name) : ∃ n, List.replicate (n + 1) 'x' ∉ names := by
  refine ⟨names.flatten.length, fun hmem => ?_⟩
  have hlength := (List.sublist_flatten_of_mem hmem).length_le
  rw [List.length_replicate] at hlength
  omega

/-! ## Calls -/

/-- A call that changes the tree, and raises or returns. -/
abbrev Call (ε α : Type) := ExceptT ε (StateM FileTree) α

/-- The call takes every tree to an `R`-related one, also when it raises. -/
def Steps {ε α : Type} (R : FileTree → FileTree → Prop) (call : Call ε α) : Prop :=
  ∀ t, R t (call t).2

section
variable {ε δ α β : Type} {R : FileTree → FileTree → Prop}

theorem steps_pure [Std.Refl R] (a : α) : Steps R (pure a : Call ε α) := fun t => Std.Refl.refl t

theorem steps_throw [Std.Refl R] (e : ε) : Steps R (throw e : Call ε α) := fun t => Std.Refl.refl t

theorem steps_bind [IsTrans FileTree R] {call : Call ε α} {next : α → Call ε β}
    (hcall : Steps R call) (hnext : ∀ a, Steps R (next a)) : Steps R (call >>= next) := by
  intro t
  have hfirst := hcall t
  change R t (ExceptT.bindCont next (call t).1 (call t).2).2
  cases (call t).1 with
  | error e => exact hfirst
  | ok a => exact IsTrans.trans _ _ _ hfirst (hnext a _)

/-- The second call starts where the first one ended. -/
theorem bind_after [Std.Refl R] (call : Call ε α) {next : α → Call ε β} (t : FileTree)
    (hnext : ∀ a, Steps R (next a)) : R (call t).2 ((call >>= next) t).2 := by
  change R (call t).2 (ExceptT.bindCont next (call t).1 (call t).2).2
  cases (call t).1 with
  | error e => exact Std.Refl.refl _
  | ok a => exact hnext a _

theorem steps_tryCatch [IsTrans FileTree R] {call : Call ε α} {handle : ε → Call ε α}
    (hcall : Steps R call) (hhandle : ∀ e, Steps R (handle e)) :
    Steps R (tryCatch call handle) := by
  intro t
  have hfirst := hcall t
  change R t ((match (call t).1 with
    | .ok a => (pure a : Call ε α)
    | .error e => handle e) (call t).2).2
  cases (call t).1 with
  | error e => exact IsTrans.trans _ _ _ hfirst (hhandle e _)
  | ok a => exact hfirst

theorem steps_adapt (f : ε → δ) {call : Call ε α} (hcall : Steps R call) :
    Steps R (ExceptT.adapt f call : Call δ α) :=
  fun t => hcall t

theorem steps_forM [Std.Refl R] [IsTrans FileTree R] (as : List α) {call : α → Call ε PUnit}
    (hcall : ∀ a ∈ as, Steps R (call a)) : Steps R (as.forM call) := by
  induction as with
  | nil => exact steps_pure _
  | cons a as ih =>
    exact steps_bind (hcall a List.mem_cons_self) fun _ =>
      ih fun b hb => hcall b (List.mem_cons_of_mem _ hb)

theorem Steps.mono {Q : FileTree → FileTree → Prop} {call : Call ε α} (hcall : Steps R call)
    (h : ∀ t t', R t t' → Q t t') : Steps Q call :=
  fun t => h _ _ (hcall t)

end

/-- The number and the text of an error are left out. -/
inductive OSError where
  | osError
  deriving DecidableEq, Repr

/-- Where a path leads, if all that it goes through are directories. -/
def FileTree.walk (t : FileTree) : Path → List Name → Option Path
  | path, [] => some path
  | path, name :: names =>
    if t.node path = some .directory then t.walk (enter path name) names else none

/-- `os.stat`. -/
def FileTree.stat (t : FileTree) (s : List Char) : Option (Path × Node) :=
  (t.walk [] (components s)).bind fun path => (t.node path).map fun node => (path, node)

/-- `os.path.exists`. -/
def pathExists (s : List Char) : Call OSError Bool := fun t => (.ok (t.stat s).isSome, t)

/-- `os.mkdir`. -/
def mkdir (path : Path) : Call OSError Unit := fun t =>
  if h : t.node path.dropLast = some .directory ∧ t.node path = none then
    (.ok (), t.put path .directory h.1 (by simp [h.2]))
  else (.error .osError, t)

/-- `os.mkdir` of a directory that may be there. -/
def ensureDirectory (path : Path) : Call OSError Unit := fun t =>
  if t.node path = some .directory then (.ok (), t) else mkdir path t

/-- `os.makedirs(path, exist_ok=True)` from a directory on. -/
def makedirsFrom : Path → List Name → Call OSError Unit
  | _, [] => pure ()
  | path, name :: names => do
    ensureDirectory (enter path name)
    makedirsFrom (enter path name) names

def makedirs (s : List Char) : Call OSError Unit := makedirsFrom [] (components s)

/-- What is written to `open(path, "wb")`. -/
def writeFile (path : Path) (data : List UInt8) : Call OSError Unit := fun t =>
  if h : t.node path.dropLast = some .directory ∧ t.node path ≠ some .directory then
    (.ok (), t.put path (.file data) h.1 h.2)
  else (.error .osError, t)

/-- `writeFile` of a path that is written out. -/
def write (s : List Char) (data : List UInt8) : Call OSError Unit := fun t =>
  match t.walk [] (components s) with
  | none => (.error .osError, t)
  | some path => writeFile path data t

/-- `os.remove`. -/
def remove (s : List Char) : Call OSError Unit := fun t =>
  match t.stat s with
  | some (path, .file _) => (.ok (), t.cut path)
  | _ => (.error .osError, t)

/-- The last component that `rmdir` reads is a name. -/
def endsInName (s : List Char) : Bool :=
  ((components s).filter (· ≠ [])).getLast?.any fun name => name ≠ ['.'] ∧ name ≠ ['.', '.']

/-- `shutil.rmtree`. All that lies in the directory goes first. Then `rmdir` reads the
path once more, which may have led through what is gone. -/
def rmtree (s : List Char) : Call OSError Unit := fun t =>
  match t.stat s with
  | some (dir, .directory) =>
    if ((t.clear dir).walk [] (components s)).isSome ∧ endsInName s then
      (.ok (), (t.clear dir).cut dir)
    else (.error .osError, t.clear dir)
  | _ => (.error .osError, t)

theorem FileTree.walk_eq {t : FileTree} {path target : Path} {names : List Name}
    (h : t.walk path names = some target) : target = names.foldl enter path := by
  induction names generalizing path with
  | nil => exact (Option.some.inj h).symm
  | cons name names ih =>
    simp only [walk] at h
    split at h
    · exact ih h
    · cases h

/-- A path leads to its end if all that it goes through are directories. -/
theorem FileTree.walk_directories {t : FileTree} {path : Path} {names : List Name}
    (h : ∀ read ∈ names.inits, t.node (read.foldl enter path) = some .directory) :
    t.walk path names = some (names.foldl enter path) := by
  induction names generalizing path with
  | nil => rfl
  | cons name names ih =>
    have hpath : t.node path = some .directory := h [] (by simp)
    rw [walk, if_pos hpath]
    refine ih fun read hread => h (name :: read) ?_
    simpa using hread

theorem FileTree.stat_eq {t : FileTree} {s : List Char} {path : Path} {node : Node}
    (h : t.stat s = some (path, node)) : path = resolve s := by
  simp only [stat, Option.bind_eq_some_iff, Option.map_eq_some_iff, Prod.mk.injEq] at h
  obtain ⟨path, hwalk, node, hnode, rfl, rfl⟩ := h
  exact FileTree.walk_eq hwalk

/-- There is a tree that has the directory of a path, and in another directory a file that
is none of the `taken` ones. -/
theorem exists_populated (s : List Char) (dir : Path) (taken : List Name) :
    ∃ (t : FileTree) (name : Name), name ∉ taken ∧
      t.stat s = some (resolve s, .directory) ∧ t.node (dir ++ [name]) = some (.file []) := by
  let dirs := dir :: (components s).inits.map (List.foldl enter [])
  obtain ⟨n, hfresh⟩ := exists_fresh (taken ++ dirs.flatten)
  rw [List.mem_append, not_or] at hfresh
  generalize List.replicate (n + 1) 'x' = name at hfresh
  have hnew : ∀ path ∈ dirs, ¬ dir ++ [name] <+: path := by
    intro path hpath hfile
    have hmem : name ∈ path := hfile.subset (by simp)
    exact hfresh.2 (List.mem_flatten.2 ⟨path, hpath, hmem⟩)
  have hparent : (FileTree.ofDirectories dirs).node (dir ++ [name]).dropLast = some .directory := by
    rw [List.dropLast_concat]
    exact ofDirectories_node.2 (.inr ⟨dir, List.mem_cons_self, List.prefix_refl dir⟩)
  have hfree : (FileTree.ofDirectories dirs).node (dir ++ [name]) ≠ some .directory := by
    intro hdirectory
    rcases ofDirectories_node.1 hdirectory with hroot | ⟨path, hpath, hfile⟩
    · simp at hroot
    · exact hnew path hpath hfile
  let t := (FileTree.ofDirectories dirs).put (dir ++ [name]) (.file []) hparent hfree
  have hreads : ∀ read ∈ (components s).inits, t.node (read.foldl enter []) = some .directory := by
    intro read hread
    have hmem : read.foldl enter [] ∈ dirs := List.mem_cons_of_mem _ (List.mem_map_of_mem hread)
    have hne : read.foldl enter [] ≠ dir ++ [name] := fun heq =>
      hnew _ hmem (heq ▸ List.prefix_refl _)
    exact (if_neg hne).trans (ofDirectories_node.2 (.inr ⟨_, hmem, List.prefix_refl _⟩))
  refine ⟨t, name, hfresh.1, ?_, if_pos rfl⟩
  have hs : t.node (resolve s) = some .directory := hreads _ (by simp)
  rw [FileTree.stat, FileTree.walk_directories hreads]
  exact congrArg (Option.map _) hs

/-! ## What a call changes -/

/-- Directories appear where nothing was. -/
def Grows (t t' : FileTree) : Prop :=
  ∀ path, t'.node path = t.node path ∨ t.node path = none ∧ t'.node path = some .directory

instance : IsPreorder FileTree Grows where
  refl _ _ := .inl rfl
  trans _ _ _ h h' path := by grind [h path, h' path]

/-- At the directory or below, something goes. -/
def Shrinks (dir : Path) (t t' : FileTree) : Prop :=
  ∀ path, t'.node path = t.node path ∨ dir <+: path ∧ t'.node path = none

/-- At the path, a file is written. -/
def Rewrites (file : Path) (t t' : FileTree) : Prop :=
  ∀ path, t'.node path = t.node path ∨ path = file ∧ ∃ data, t'.node path = some (.file data)

theorem pathExists_steps {R : FileTree → FileTree → Prop} [Std.Refl R] (s : List Char) :
    Steps R (pathExists s) :=
  fun t => Std.Refl.refl t

theorem mkdir_grows (path : Path) : Steps Grows (mkdir path) := by
  intro t other
  unfold mkdir
  split
  · next h =>
    by_cases hother : other = path
    · exact .inr ⟨hother ▸ h.2, if_pos hother⟩
    · exact .inl (if_neg hother)
  · exact .inl rfl

theorem ensureDirectory_grows (path : Path) : Steps Grows (ensureDirectory path) := by
  intro t
  unfold ensureDirectory
  split
  · exact refl t
  · exact mkdir_grows path t

theorem makedirsFrom_grows (path : Path) (names : List Name) :
    Steps Grows (makedirsFrom path names) := by
  induction names generalizing path with
  | nil => exact steps_pure ()
  | cons name names ih => exact steps_bind (ensureDirectory_grows _) fun _ => ih _

theorem makedirs_grows (s : List Char) : Steps Grows (makedirs s) := makedirsFrom_grows _ _

theorem writeFile_rewrites (path : Path) (data : List UInt8) :
    Steps (Rewrites path) (writeFile path data) := by
  intro t other
  unfold writeFile
  split
  · by_cases hother : other = path
    · exact .inr ⟨hother, data, if_pos hother⟩
    · exact .inl (if_neg hother)
  · exact .inl rfl

theorem write_rewrites (s : List Char) (data : List UInt8) :
    Steps (Rewrites (resolve s)) (write s data) := by
  intro t
  unfold write
  split
  · exact fun _ => .inl rfl
  · next path hwalk =>
    rw [show resolve s = path from (FileTree.walk_eq hwalk).symm]
    exact writeFile_rewrites path data t

theorem clear_shrinks (t : FileTree) (dir : Path) : Shrinks dir t (t.clear dir) := by
  intro path
  simp only [FileTree.clear]
  split
  · next h => exact .inr ⟨h.1, rfl⟩
  · exact .inl rfl

theorem cut_shrinks (t : FileTree) (top : Path) : Shrinks top t (t.cut top) := by
  intro path
  simp only [FileTree.cut]
  split
  · next h => exact .inr ⟨h.2, rfl⟩
  · exact .inl rfl

theorem remove_shrinks (s : List Char) : Steps (Shrinks (resolve s)) (remove s) := by
  intro t
  unfold remove
  split
  · next path data hstat =>
    rw [← FileTree.stat_eq hstat]
    exact cut_shrinks t path
  · exact fun _ => .inl rfl

theorem rmtree_shrinks (s : List Char) : Steps (Shrinks (resolve s)) (rmtree s) := by
  intro t
  unfold rmtree
  split
  · next dir hstat =>
    rw [← FileTree.stat_eq hstat]
    have hclear := clear_shrinks t dir
    split
    · intro path
      rcases cut_shrinks (t.clear dir) dir path with hcut | hgone
      · exact hcut ▸ hclear path
      · exact .inr hgone
    · exact hclear
  · exact fun _ => .inl rfl

/-- What lay in the directory is gone, also when `rmtree` raises. -/
theorem rmtree_clears {t : FileTree} {s : List Char} {dir path : Path}
    (hstat : t.stat s = some (dir, .directory)) (hdir : dir <+: path) (hne : path ≠ dir) :
    (rmtree s t).2.node path = none := by
  have hclear : (t.clear dir).node path = none := if_pos ⟨hdir, hne⟩
  simp only [rmtree, hstat]
  split
  · rcases cut_shrinks (t.clear dir) dir path with hcut | hgone
    · exact hcut.trans hclear
    · exact hgone.2
  · exact hclear

/-! ## What a call leaves alone -/

/-- What is there outside of the directory stays as it is. -/
def Keeps (dir : Path) (t t' : FileTree) : Prop :=
  ∀ path, ¬ dir <+: path → t.node path ≠ none → t'.node path = t.node path

instance (dir : Path) : IsPreorder FileTree (Keeps dir) where
  refl _ _ _ _ := rfl
  trans t t' t'' h h' path hout hnode := by
    have hkept := h path hout hnode
    rw [h' path hout (hkept ▸ hnode), hkept]

/-- A path that is no file does not become one. -/
def NoFile (path : Path) (t t' : FileTree) : Prop :=
  (∀ data, t.node path ≠ some (.file data)) → ∀ data, t'.node path ≠ some (.file data)

instance (path : Path) : IsPreorder FileTree (NoFile path) where
  refl _ h := h
  trans _ _ _ h h' hnone := h' (h hnone)

section
variable {t t' : FileTree} {dir path : Path}

theorem Grows.keeps (h : Grows t t') : Keeps dir t t' := fun other _ hnode =>
  (h other).resolve_right fun hnew => hnode hnew.1

theorem Grows.noFile (h : Grows t t') : NoFile path t t' := by
  intro hnone data
  rcases h path with hsame | ⟨-, hnew⟩
  · exact hsame ▸ hnone data
  · simp [hnew]

theorem Shrinks.mono {inside : Path} (h : Shrinks inside t t') (hdir : dir <+: inside) :
    Shrinks dir t t' := fun other =>
  (h other).imp_right fun hgone => ⟨hdir.trans hgone.1, hgone.2⟩

theorem Shrinks.keeps (h : Shrinks dir t t') : Keeps dir t t' := fun other hout _ =>
  (h other).resolve_right fun hgone => hout hgone.1

theorem Shrinks.noFile (h : Shrinks dir t t') : NoFile path t t' := by
  intro hnone data
  rcases h path with hsame | ⟨-, hgone⟩
  · exact hsame ▸ hnone data
  · simp [hgone]

theorem Rewrites.keeps {file : Path} (h : Rewrites file t t') (hdir : dir <+: file) :
    Keeps dir t t' := fun other hout _ =>
  (h other).resolve_right fun hnew => hout (hnew.1 ▸ hdir)

theorem Rewrites.noFile {file : Path} (h : Rewrites file t t') (hne : path ≠ file) :
    NoFile path t t' := by
  intro hnone data
  rcases h path with hsame | ⟨heq, -⟩
  · exact hsame ▸ hnone data
  · exact absurd heq hne

end

end TradePlat.Files
