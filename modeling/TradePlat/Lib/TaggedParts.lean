import Mathlib.Data.List.Dedup
import Mathlib.Data.List.Flatten
import Mathlib.Data.List.Perm.Subperm

/-!
# Lists and their parts

Where every member of a list carries a tag, the list is made of the parts of its tags
(`parts_perm`). Two lists are therefore compared part by part: if each part of one is a
sublist of the part of the other with that tag, the first is in the second, each member
at most as often (`parts_subperm`), and if the parts are the same, so are the lists but for
the order (`perm_of_parts`). An image of a list is in the image of a larger one
(`map_subperm`).
-/

namespace TradePlat.TaggedParts

theorem map_subperm {α κ : Type} (f : α → κ) {l l' : List α} (h : l.Subperm l') :
    (l.map f).Subperm (l'.map f) := by
  obtain ⟨m, hperm, hsub⟩ := h
  exact ⟨m.map f, hperm.map f, hsub.map f⟩

section Parts
variable {α β τ κ : Type} [DecidableEq τ]

/-- The members without the first tag have the parts of the other tags. -/
theorem parts_rest (tag : α → τ) (f : α → κ) {t : τ} {tags : List τ} (hnot : t ∉ tags)
    (l : List α) :
    (tags.flatMap fun t' =>
        ((l.filter fun a => ¬ tag a = t).filter fun a => tag a = t').map f) =
      tags.flatMap fun t' => (l.filter fun a => tag a = t').map f := by
  refine List.flatMap_congr fun t' ht' => ?_
  rw [List.filter_filter]
  congr 1
  refine List.filter_congr fun a _ => ?_
  by_cases ha : tag a = t'
  · have hne : t' ≠ t := fun heq => hnot (heq ▸ ht')
    simp [ha, hne]
  · simp [ha]

/-- A list is made of its parts, by tags. -/
theorem parts_perm (tag : α → τ) (f : α → κ) (tags : List τ) (htags : tags.Nodup) {l : List α}
    (h : ∀ a ∈ l, tag a ∈ tags) :
    (tags.flatMap fun t => (l.filter fun a => tag a = t).map f).Perm (l.map f) := by
  induction tags generalizing l with
  | nil => rw [List.eq_nil_iff_forall_not_mem.mpr fun a ha => List.not_mem_nil (h a ha)]; rfl
  | cons t tags ih =>
    obtain ⟨hnot, hnodup⟩ := List.nodup_cons.mp htags
    have hrest := ih hnodup (l := l.filter fun a => ¬ tag a = t) fun a ha => by
      obtain ⟨hmem, hne⟩ := List.mem_filter.mp ha
      exact (List.mem_cons.mp (h a hmem)).resolve_left (by simpa using hne)
    rw [parts_rest tag f hnot] at hrest
    rw [List.flatMap_cons]
    refine (hrest.append_left _).trans ?_
    rw [← List.map_append]
    simpa only [decide_not] using (List.filter_append_perm (fun a => decide (tag a = t)) l).map f

/-- Where each part of a list is in the part of another one, by tags, the list is in the
other one. -/
theorem parts_subperm (tag : α → τ) (tag' : β → τ) {f : α → κ} {g : β → κ} {l : List α}
    {l' : List β}
    (h : ∀ t, ((l.filter fun a => tag a = t).map f).Sublist
      ((l'.filter fun b => tag' b = t).map g)) : (l.map f).Subperm (l'.map g) := by
  have hnodup : (l.map tag ++ l'.map tag').dedup.Nodup := List.nodup_dedup _
  have hparts := parts_perm tag f _ hnodup (l := l) fun a ha =>
    List.mem_dedup.mpr (List.mem_append_left _ (List.mem_map_of_mem ha))
  have hparts' := parts_perm tag' g _ hnodup (l := l') fun b hb =>
    List.mem_dedup.mpr (List.mem_append_right _ (List.mem_map_of_mem hb))
  exact hparts.symm.subperm.trans
    ((List.Sublist.flatMap_right _ fun t _ => h t).subperm.trans hparts'.subperm)

/-- Lists of the same parts are the same, but for the order. -/
theorem perm_of_parts (tag : α → τ) (tag' : β → τ) {f : α → κ} {g : β → κ} {l : List α}
    {l' : List β}
    (h : ∀ t, (l.filter fun a => tag a = t).map f = (l'.filter fun b => tag' b = t).map g) :
    (l.map f).Perm (l'.map g) :=
  (parts_subperm tag tag' fun t => h t ▸ List.Sublist.refl _).antisymm
    (parts_subperm tag' tag fun t => h t ▸ List.Sublist.refl _)

end Parts

end TradePlat.TaggedParts
