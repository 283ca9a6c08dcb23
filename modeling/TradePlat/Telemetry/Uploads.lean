import TradePlat.Lib.FileTree

/-!
# Uploads of submissions (`api.py`)

`receive_submission` joins the `contestant_id` of the form to `TMP_UPLOAD_DIR`, deletes
the directory of that path, makes it again and extracts the archive into it. The id is
not checked, so the path may lead anywhere. The upload runs to its end without an `await`.
-/

namespace TradePlat.Uploads
open Files

/-! ## The endpoint -/

/-- `TMP_UPLOAD_DIR`. -/
def tmpUploadDir : List Char := "/tmp/sandbox_uploads".toList

/-- No path has a NUL in it: with such an id, `os.path.exists` is false and `os.makedirs`
raises. -/
structure ContestantId where
  text : String
  noNul : Char.ofNat 0 ∉ text.toList
  deriving DecidableEq, Repr

/-- The text of an `HTTPException` is `detail` and then the text of `cause`. -/
inductive Raised where
  | osError (error : OSError)
  | zipError (text : String)
  | httpException (status : Nat) (detail : String) (cause : Option Raised)
  deriving Repr

instance : MonadLift (Call OSError) (Call Raised) := ⟨ExceptT.adapt .osError⟩

/-- A file of an archive. `source` is what it can be read to, and what the read may end
with, if it can be opened. -/
structure Member where
  filename : List Char
  source : Except Raised (List UInt8 × Option Raised)

structure Upload where
  contestantId : ContestantId
  filename : List Char
  content : List UInt8
  /-- What `zipfile.ZipFile` reads in the content. -/
  archive : Except Raised (List Member)

/-- The answer, and the command of the detached orchestrator. -/
structure Queued where
  status : String
  message : String
  cmdArgs : List String
  deriving Repr

/-- What `ZipFile.extract` leaves of a name. -/
def Member.names (member : Member) : List Name :=
  (components member.filename).filter fun name =>
    name ≠ [] ∧ name ≠ ['.'] ∧ name ≠ ['.', '.']

/-- `ZipFile.extract`. -/
def extractMember (dir : Path) (member : Member) : Call Raised Unit := do
  makedirsFrom [] (dir ++ member.names).dropLast
  if member.filename.getLast? = some '/' then
    ensureDirectory (dir ++ member.names)
  else
    match member.source with
    | .error e => throw e
    | .ok (data, fault) => do
      writeFile (dir ++ member.names) data
      match fault with
      | some e => throw e
      | none => pure ()

def contestantDir (id : ContestantId) : List Char := join tmpUploadDir id.text.toList

def zipFilePath (id : ContestantId) : List Char :=
  join (contestantDir id) "submission.zip".toList

def removeExisting (s : List Char) : Call OSError Unit := do
  if ← pathExists s then rmtree s

/-- The body of the `try`. -/
def extractAll (up : Upload) : Call Raised Queued := do
  write (zipFilePath up.contestantId) up.content
  match up.archive with
  | .error e => throw e
  | .ok members =>
    members.forM (extractMember (resolve (contestantDir up.contestantId)))
    remove (zipFilePath up.contestantId)
    return {
      status := "QUEUED"
      message := "Successfully extracted submission workspace configurations for " ++
        up.contestantId.text ++ ". Sandbox build initiated."
      cmdArgs := ["infra/orchestrator.py", "--sub-id", up.contestantId.text] }

/-- What follows the first `rmtree`. -/
def refill (up : Upload) : Call Raised Queued := do
  makedirs (contestantDir up.contestantId)
  tryCatch (extractAll up) fun e => do
    removeExisting (contestantDir up.contestantId)
    throw (.httpException 500 "Internal evaluation cluster runtime error: " (some e))

def receiveSubmission (up : Upload) : Call Raised Queued :=
  if ".zip".toList <:+ up.filename then do
    removeExisting (contestantDir up.contestantId)
    refill up
  else
    throw (.httpException 400
      "Invalid layout footprint. Submission package must be a .zip archive." none)

/-- The directory that an upload deletes, makes again and extracts into. -/
def stagingDir (id : ContestantId) : Path := resolve (contestantDir id)

/-! ## What an upload changes -/

/-- The files that an upload writes. -/
def Upload.Writes (up : Upload) (file : Path) : Prop :=
  file = stagingDir up.contestantId ++ ["submission.zip".toList] ∨
    ∃ members, up.archive = .ok members ∧
      ∃ member ∈ members, file = stagingDir up.contestantId ++ member.names

theorem Upload.Writes.below {up : Upload} {file : Path} (h : up.Writes file) :
    stagingDir up.contestantId <+: file := by
  rcases h with rfl | ⟨members, -, member, -, rfl⟩ <;> exact List.prefix_append _ _

theorem resolve_zipFilePath (id : ContestantId) :
    resolve (zipFilePath id) = stagingDir id ++ ["submission.zip".toList] := by
  rw [zipFilePath, resolve_join, if_neg (by decide), stagingDir]
  rfl

theorem steps_lift {R : FileTree → FileTree → Prop} {α : Type} {call : Call OSError α}
    (hcall : Steps R call) : Steps R (liftM call : Call Raised α) :=
  steps_adapt _ hcall

section
variable {R : FileTree → FileTree → Prop} [IsPreorder FileTree R] {up : Upload}

theorem removeExisting_steps
    (hshrinks : ∀ t t', Shrinks (stagingDir up.contestantId) t t' → R t t') :
    Steps R (removeExisting (contestantDir up.contestantId)) := by
  refine steps_bind (pathExists_steps _) fun there => ?_
  cases there with
  | true => exact (rmtree_shrinks _).mono hshrinks
  | false => exact steps_pure ()

variable (hgrows : ∀ t t', Grows t t' → R t t')
  (hwrites : ∀ file, up.Writes file → ∀ t t', Rewrites file t t' → R t t')
include hgrows hwrites

theorem extractMember_steps {members : List Member} (harchive : up.archive = .ok members)
    {member : Member} (hmember : member ∈ members) :
    Steps R (extractMember (stagingDir up.contestantId) member) := by
  refine steps_bind (steps_lift ((makedirsFrom_grows _ _).mono hgrows)) fun _ => ?_
  split
  · exact steps_lift ((ensureDirectory_grows _).mono hgrows)
  · split
    · exact steps_throw _
    · next data fault _ =>
      have hwritten := hwrites _ (.inr ⟨members, harchive, member, hmember, rfl⟩)
      refine steps_bind (steps_lift ((writeFile_rewrites _ data).mono hwritten)) fun _ => ?_
      split
      · exact steps_throw _
      · exact steps_pure ()

variable (hshrinks : ∀ t t', Shrinks (stagingDir up.contestantId) t t' → R t t')
include hshrinks

theorem extractAll_steps : Steps R (extractAll up) := by
  have hzip := resolve_zipFilePath up.contestantId
  have hwritten := hwrites _ (.inl hzip)
  refine steps_bind (steps_lift ((write_rewrites _ _).mono hwritten)) fun _ => ?_
  split
  · exact steps_throw _
  · next members harchive =>
    refine steps_bind (steps_forM members fun member hmember => ?_) fun _ => ?_
    · exact extractMember_steps hgrows hwrites harchive hmember
    · have hremove : Steps R (remove (zipFilePath up.contestantId)) :=
        (remove_shrinks _).mono fun t t' h =>
          hshrinks t t' (h.mono (hzip ▸ List.prefix_append _ _))
      exact steps_bind (steps_lift hremove) fun _ => steps_pure _

theorem refill_steps : Steps R (refill up) := by
  refine steps_bind (steps_lift ((makedirs_grows _).mono hgrows)) fun _ => ?_
  refine steps_tryCatch (extractAll_steps hgrows hwrites hshrinks) fun e => ?_
  exact steps_bind (steps_lift (removeExisting_steps hshrinks)) fun _ => steps_throw _

/-- An upload makes directories, deletes in its staging directory and writes its files. -/
theorem receiveSubmission_steps : Steps R (receiveSubmission up) := by
  unfold receiveSubmission
  split
  · exact steps_bind (steps_lift (removeExisting_steps hshrinks)) fun _ =>
      refill_steps hgrows hwrites hshrinks
  · exact steps_throw _

end

/-- All that is there outside of the staging directory of the upload stays. -/
theorem receiveSubmission_keeps (up : Upload) :
    Steps (Keeps (stagingDir up.contestantId)) (receiveSubmission up) :=
  receiveSubmission_steps (fun _ _ h => h.keeps) (fun _ hfile _ _ h => h.keeps hfile.below)
    fun _ _ h => h.keeps

/-- Of what was in the staging directory, only what is in the archive too is there after
the upload. -/
theorem receiveSubmission_replaces {up : Upload} {t : FileTree} {path : Path}
    (hzip : ".zip".toList <:+ up.filename)
    (hstat : t.stat (contestantDir up.contestantId) =
      some (stagingDir up.contestantId, .directory))
    (hbelow : stagingDir up.contestantId <+: path) (hne : path ≠ stagingDir up.contestantId)
    (hwrites : ¬ up.Writes path) (data : List UInt8) :
    (receiveSubmission up t).2.node path ≠ some (.file data) := by
  have hclear : (removeExisting (contestantDir up.contestantId) t).2.node path = none := by
    have hexists : removeExisting (contestantDir up.contestantId) t =
        rmtree (contestantDir up.contestantId) t := by
      change (if (t.stat (contestantDir up.contestantId)).isSome = true then
        rmtree (contestantDir up.contestantId) else pure ()) t = _
      simp [hstat]
    rw [hexists]
    exact rmtree_clears hstat hbelow hne
  have hrest : NoFile path (removeExisting (contestantDir up.contestantId) t).2
      (receiveSubmission up t).2 := by
    rw [receiveSubmission, if_pos hzip]
    refine bind_after (liftM (removeExisting _) : Call Raised Unit) t fun _ => ?_
    refine refill_steps (fun _ _ h => h.noFile) ?_ (fun _ _ h => h.noFile)
    intro file hfile _ _ h
    exact h.noFile fun heq => hwrites (heq ▸ hfile)
  exact hrest (by simp [hclear]) data

/-! ## Ids whose uploads stay apart -/

/-- The staging directory lies in `TMP_UPLOAD_DIR`. -/
def Contained (id : ContestantId) : Prop :=
  resolve tmpUploadDir <+: stagingDir id ∧ resolve tmpUploadDir ≠ stagingDir id

/-- What is there in the staging directory of `other` stays as it is in every upload. -/
def Undisturbed (id other : ContestantId) : Prop :=
  ∀ (up : Upload) (t : FileTree) (path : Path), up.contestantId = id →
    stagingDir other <+: path → t.node path ≠ none →
      (receiveSubmission up t).2.node path = t.node path

/-- How many directories of `TMP_UPLOAD_DIR` an id leaves. -/
def climbed (id : ContestantId) : Nat :=
  if id.text.toList.head? = some '/' then (resolve tmpUploadDir).length
  else (reduced (components id.text.toList)).1

/-- The names that an id goes down after that. -/
def descended (id : ContestantId) : Path := (reduced (components id.text.toList)).2

/-- The id enters again the directories that it leaves, and goes on. -/
def Descends (id : ContestantId) : Prop :=
  let left := (resolve tmpUploadDir).drop ((resolve tmpUploadDir).length - climbed id)
  left <+: descended id ∧ left ≠ descended id

/-- Where an id leads. -/
def place (id : ContestantId) : Path :=
  (resolve tmpUploadDir).take ((resolve tmpUploadDir).length - climbed id) ++ descended id

/-- Neither id leads into the place of the other. -/
def Apart (id other : ContestantId) : Prop :=
  ¬ place id <+: place other ∧ ¬ place other <+: place id

instance (id : ContestantId) : Decidable (Descends id) := inferInstanceAs (Decidable (_ ∧ _))

instance (id other : ContestantId) : Decidable (Apart id other) :=
  inferInstanceAs (Decidable (_ ∧ _))

theorem stagingDir_eq (id : ContestantId) : stagingDir id = place id := by
  rw [stagingDir, contestantDir, resolve_join, place, climbed]
  split
  · rw [foldl_enter, Nat.sub_self, List.take_zero, List.take_nil]
    rfl
  · exact foldl_enter _ _

theorem contained_iff (id : ContestantId) : Contained id ↔ Descends id := by
  rw [Contained, stagingDir_eq, place, prefix_take_append, ne_eq, eq_take_append]
  rfl

theorem undisturbed_of_apart {id other : ContestantId} (h : Apart id other) :
    Undisturbed id other := by
  rintro up t path rfl hpath hnode
  rw [Apart, ← stagingDir_eq, ← stagingDir_eq] at h
  refine receiveSubmission_keeps up t path (fun hup => ?_) hnode
  rcases List.prefix_or_prefix_of_prefix hup hpath with hid | hother
  · exact h.1 hid
  · exact h.2 hother

/-- Where a directory is in both staging directories, an upload for the one deletes a file
of the other. -/
theorem disturbs {id other : ContestantId} {dir : Path} (hid : stagingDir id <+: dir)
    (hother : stagingDir other <+: dir) : ¬ Undisturbed id other := by
  intro hundisturbed
  obtain ⟨t, name, hname, hstat, hfile⟩ :=
    exists_populated (contestantDir id) dir ["submission.zip".toList]
  have hbelow := List.prefix_append dir [name]
  let up : Upload := ⟨id, ".zip".toList, [], .ok []⟩
  have hwrites : ¬ up.Writes (dir ++ [name]) := by
    rintro (hzip | ⟨members, harchive, member, hmember, -⟩)
    · have hlast := List.singleton_inj.1 (List.append_inj' hzip rfl).2
      exact hname (List.mem_singleton.2 hlast)
    · cases harchive
      exact absurd hmember List.not_mem_nil
  have hne : dir ++ [name] ≠ stagingDir id := by
    intro heq
    have hlength := hid.length_le
    rw [← heq, List.length_append, List.length_singleton] at hlength
    omega
  have hkept := hundisturbed up t _ rfl (hother.trans hbelow) (by simp [hfile])
  have hzip : ".zip".toList <:+ up.filename := List.suffix_refl _
  have hgone := receiveSubmission_replaces hzip hstat (hid.trans hbelow) hne hwrites []
  exact hgone (hkept.trans hfile)

theorem undisturbed_iff (id other : ContestantId) : Undisturbed id other ↔ Apart id other := by
  refine ⟨fun h => ?_, undisturbed_of_apart⟩
  rw [Apart, ← stagingDir_eq, ← stagingDir_eq]
  constructor
  · exact fun hid => disturbs hid (List.prefix_refl _) h
  · exact fun hother => disturbs (List.prefix_refl _) hother h

/-- **When uploads stay in staging directories of their own.** An upload stages below
`TMP_UPLOAD_DIR` exactly if its id goes down from there, and no upload for one of two ids
deletes or overwrites what is staged for the other exactly if neither id leads into the
place of the other. -/
theorem uploads_isolated_iff (id other : ContestantId) :
    (Contained id ↔ Descends id) ∧
      (Undisturbed id other ∧ Undisturbed other id ↔ Apart id other) := by
  refine ⟨contained_iff id, ?_⟩
  rw [undisturbed_iff, undisturbed_iff]
  exact ⟨fun h => h.1, fun h => ⟨h, h.2, h.1⟩⟩

/-- `../../etc` is staged in `/etc`. An upload for `a/` deletes the files of `a`. -/
theorem upload_escapes :
    (stagingDir ⟨"../../etc", by decide⟩ = ["etc".toList] ∧
      ¬ Contained ⟨"../../etc", by decide⟩) ∧
    ("a/" ≠ "a" ∧ ¬ Undisturbed ⟨"a/", by decide⟩ ⟨"a", by decide⟩) := by
  have hetc : stagingDir ⟨"../../etc", by decide⟩ = ["etc".toList] := by decide
  refine ⟨⟨hetc, ?_⟩, by decide, ?_⟩
  · rw [Contained, hetc]
    decide
  · have hshared : stagingDir ⟨"a/", by decide⟩ <+: stagingDir ⟨"a", by decide⟩ := by decide
    exact disturbs hshared (List.prefix_refl _)

end TradePlat.Uploads
