import TradePlat.Lib.LinkedCells
import TradePlat.Lib.Runs

/-!
# The memory pool (`MemoryPool.h`)

A pool hands out slots from a free list that is threaded through the slots themselves,
and takes a new block of them where the list is empty. A slot is where an object of
type `T` lives, and its address is that of the object, so that a pointer that comes back
is the slot it was. The mutex makes each call one step.

The free slots and the live ones share the slots of all blocks between them
(`Shares`), and every call keeps that, whatever the sizes of the blocks. That alone makes
the free list end and keeps a live slot from being handed out (`never_live`).
-/

namespace TradePlat.Memory
open LinkedCells Runs

/-- A slot, by its block, in the order of `blocks_`, and its place in it. -/
structure Slot where
  block : Nat
  index : Nat
  deriving DecidableEq, Repr

/-- `blocks` holds the sizes of the blocks. -/
structure MemoryPool where
  freeHead : Option Slot
  next : Slot → Option Slot
  blocks : List Nat
  blockSize : Nat
  blockSize_pos : 0 < blockSize

namespace MemoryPool

/-- `new_block[i].next = &new_block[i + 1]`, for the first `n` slots of a block. -/
def linkSlots (next : Slot → Option Slot) (block : Nat) : Nat → Slot → Option Slot
  | 0 => next
  | n + 1 => Function.update (linkSlots next block n) ⟨block, n⟩ (some ⟨block, n + 1⟩)

/-- `allocate_block()`. -/
def allocateBlock (pool : MemoryPool) : MemoryPool :=
  let newBlock := pool.blocks.length
  let linked := linkSlots pool.next newBlock (pool.blockSize - 1)
  { pool with
    next := Function.update linked ⟨newBlock, pool.blockSize - 1⟩ pool.freeHead
    freeHead := some ⟨newBlock, 0⟩
    blocks := pool.blocks ++ [pool.blockSize] }

/-- The members before the body of the constructor takes its first block. -/
def empty (blockSize : Nat) (h : 0 < blockSize) : MemoryPool := ⟨none, fun _ => none, [], blockSize, h⟩

/-- `MemoryPool(initial_capacity, block_size)`. -/
def new (initialCapacity blockSize : Nat) : MemoryPool :=
  let original := if blockSize = 0 then 1024 else blockSize
  have h : 0 < original := by
    unfold original
    split <;> omega
  if hcapacity : 0 < initialCapacity then
    { (empty initialCapacity hcapacity).allocateBlock with
      blockSize := original
      blockSize_pos := h }
  else empty original h

/-- `allocate(…)`. `none` is where `free_head_` is null behind `allocate_block`. -/
def allocate (pool : MemoryPool) : MemoryPool × Option Slot :=
  let pool := if pool.freeHead = none then pool.allocateBlock else pool
  match pool.freeHead with
  | none => (pool, none)
  | some slot => ({ pool with freeHead := pool.next slot }, some slot)

/-- `deallocate(ptr)`. -/
def deallocate (pool : MemoryPool) : Option Slot → MemoryPool
  | none => pool
  | some slot =>
    { pool with next := Function.update pool.next slot pool.freeHead, freeHead := some slot }

end MemoryPool

inductive Input where
  | allocate
  | deallocate (ptr : Option Slot)
  deriving DecidableEq, Repr

/-- `destroyed` is the end of an object's life, `nullDereferenced` undefined behaviour. -/
inductive Output where
  | allocated (slot : Slot)
  | destroyed (slot : Slot)
  | nullDereferenced
  deriving DecidableEq, Repr

def step (pool : MemoryPool) : Input → MemoryPool × List Output
  | .allocate =>
    match pool.allocate with
    | (pool, some slot) => (pool, [.allocated slot])
    | (pool, none) => (pool, [.nullDereferenced])
  | .deallocate ptr => (pool.deallocate ptr, ptr.toList.map .destroyed)

/-- The slots in which an object lives. -/
def live (out : List Output) : List Slot :=
  out.foldl (fun slots o => match o with
    | .allocated slot => slot :: slots
    | .destroyed slot => slots.erase slot
    | .nullDereferenced => slots) []

/-- `deallocate` is given null, or a pointer to an object that lives in the pool. -/
def Valid (initialCapacity blockSize : Nat) (past : List Input) (_ : MemoryPool) : Input → Prop
  | .deallocate (some slot) => slot ∈ live (outputs step (.new initialCapacity blockSize) past)
  | _ => True

instance (initialCapacity blockSize : Nat) (past : List Input) (pool : MemoryPool) (i : Input) :
    Decidable (Valid initialCapacity blockSize past pool i) := by
  unfold Valid
  split <;> infer_instance

/-! ## Blocks -/

namespace MemoryPool

/-- The slot is in one of the blocks. -/
def Owns (pool : MemoryPool) (slot : Slot) : Prop :=
  ∃ size, pool.blocks[slot.block]? = some size ∧ slot.index < size

/-- The slots of a block, in order. -/
def slots (block size : Nat) : List Slot := (List.range' 0 size).map (Slot.mk block)

theorem mem_slots {block size : Nat} {slot : Slot} :
    slot ∈ slots block size ↔ slot.block = block ∧ slot.index < size := by
  obtain ⟨b, i⟩ := slot
  simp only [slots, List.mem_map, List.mem_range'_1, Slot.mk.injEq]
  constructor
  · rintro ⟨k, hk, rfl, rfl⟩
    exact ⟨rfl, by omega⟩
  · rintro ⟨rfl, hi⟩
    exact ⟨i, by omega, rfl, rfl⟩

theorem linkSlots_eq (next : Slot → Option Slot) (block n : Nat) (slot : Slot) :
    linkSlots next block n slot =
      if slot.block = block ∧ slot.index < n then some ⟨block, slot.index + 1⟩ else next slot := by
  induction n with
  | zero => simp [linkSlots]
  | succ n ih =>
    rw [linkSlots]
    by_cases hslot : slot = ⟨block, n⟩
    · subst hslot
      rw [Function.update_self, if_pos ⟨rfl, Nat.lt_succ_self n⟩]
    · have hlt : slot.block = block ∧ slot.index < n + 1 ↔ slot.block = block ∧ slot.index < n := by
        obtain ⟨b, i⟩ := slot
        simp only [Slot.mk.injEq, not_and] at hslot
        dsimp only
        constructor
        · rintro ⟨rfl, hi⟩
          have hne := hslot rfl
          exact ⟨rfl, by omega⟩
        · rintro ⟨rfl, hi⟩
          exact ⟨rfl, by omega⟩
      rw [Function.update_of_ne hslot, ih]
      simp only [hlt]

theorem owns_allocateBlock (pool : MemoryPool) (slot : Slot) :
    pool.allocateBlock.Owns slot ↔
      slot ∈ slots pool.blocks.length pool.blockSize ∨ pool.Owns slot := by
  rw [mem_slots]
  unfold Owns allocateBlock
  dsimp only
  rcases Nat.lt_trichotomy slot.block pool.blocks.length with hlt | heq | hgt
  · rw [List.getElem?_append_left hlt]
    constructor
    · exact Or.inr
    · rintro (⟨heq, -⟩ | howns)
      · omega
      · exact howns
  · rw [heq, List.getElem?_concat_length, List.getElem?_eq_none (Nat.le_refl _)]
    simp
  · rw [List.getElem?_eq_none (by rw [List.length_append, List.length_singleton]; omega),
      List.getElem?_eq_none (by omega)]
    constructor
    · rintro ⟨size, hsize, -⟩
      cases hsize
    · rintro (⟨heq, -⟩ | ⟨size, hsize, -⟩)
      · omega
      · cases hsize

end MemoryPool

/-! ## What the pool keeps -/

/-- The free list is `free`, and the slots of all blocks are either there or live. -/
structure Shares (pool : MemoryPool) (free live : List Slot) : Prop where
  linked : Linked pool.next pool.freeHead free
  nodup : (free ++ live).Nodup
  owns : ∀ slot, pool.Owns slot ↔ slot ∈ free ++ live

namespace Shares
open MemoryPool
variable {pool : MemoryPool} {free live : List Slot}

theorem empty (blockSize : Nat) (h : 0 < blockSize) : Shares (.empty blockSize h) [] [] where
  linked := rfl
  nodup := List.nodup_nil
  owns slot := by simp [Owns, MemoryPool.empty]

/-- The sizes of later blocks do not matter for what is there. -/
theorem resize (h : Shares pool free live) {blockSize : Nat} (hpos : 0 < blockSize) :
    Shares { pool with blockSize := blockSize, blockSize_pos := hpos } free live :=
  ⟨h.linked, h.nodup, h.owns⟩

/-- A new block is put before the free list. -/
theorem allocateBlock (h : Shares pool free live) :
    Shares pool.allocateBlock (slots pool.blocks.length pool.blockSize ++ free) live := by
  have hpos := pool.blockSize_pos
  have hnew : ∀ slot ∈ slots pool.blocks.length pool.blockSize, ¬ pool.Owns slot := by
    rintro slot hslot ⟨size, hsize, -⟩
    rw [(mem_slots.mp hslot).1, List.getElem?_eq_none (Nat.le_refl _)] at hsize
    cases hsize
  have hother : ∀ slot ∈ free, pool.allocateBlock.next slot = pool.next slot := by
    intro slot hslot
    have hold : slot ∉ slots pool.blocks.length pool.blockSize := fun hmem =>
      hnew slot hmem ((h.owns slot).mpr (List.mem_append_left _ hslot))
    rw [mem_slots] at hold
    have hlast : slot ≠ ⟨pool.blocks.length, pool.blockSize - 1⟩ := by
      rintro rfl
      exact hold ⟨rfl, by dsimp only; omega⟩
    have hlinked : ¬(slot.block = pool.blocks.length ∧ slot.index < pool.blockSize - 1) :=
      fun hlt => hold ⟨hlt.1, by omega⟩
    simp only [MemoryPool.allocateBlock]
    rw [Function.update_of_ne hlast, linkSlots_eq, if_neg hlinked]
  have hchain : ∀ k, 0 ≤ k → k < 0 + (pool.blockSize - 1) →
      pool.allocateBlock.next ⟨pool.blocks.length, k⟩ = some ⟨pool.blocks.length, k + 1⟩ := by
    intro k _ hk
    have hlast : (⟨pool.blocks.length, k⟩ : Slot) ≠ ⟨pool.blocks.length, pool.blockSize - 1⟩ := by
      rw [Ne, Slot.mk.injEq]
      omega
    simp only [MemoryPool.allocateBlock]
    rw [Function.update_of_ne hlast, linkSlots_eq, if_pos ⟨rfl, by dsimp only; omega⟩]
  have hend : pool.allocateBlock.next ⟨pool.blocks.length, 0 + (pool.blockSize - 1)⟩ =
      pool.freeHead := by
    rw [Nat.zero_add]
    exact Function.update_self ..
  refine ⟨?_, ?_, fun slot => ?_⟩
  · have hlinked := Linked.prepend hchain hend (h.linked.congr hother)
    rwa [Nat.sub_add_cancel hpos] at hlinked
  · rw [List.append_assoc, List.nodup_append']
    refine ⟨?_, h.nodup, fun slot hslot hold => hnew slot hslot ((h.owns slot).mpr hold)⟩
    refine List.Nodup.map (fun i j hij => ?_) List.nodup_range'
    exact congrArg Slot.index hij
  · rw [owns_allocateBlock, h.owns, List.append_assoc]
    exact List.mem_append.symm

/-- The head of the free list is handed out. -/
theorem pop {slot : Slot} (h : Shares pool (slot :: free) live) :
    Shares { pool with freeHead := pool.next slot } free (slot :: live) := by
  have hmoved : (free ++ slot :: live).Perm (slot :: free ++ live) := List.perm_middle
  exact ⟨h.linked.2, hmoved.nodup_iff.mpr h.nodup, fun s => (h.owns s).trans hmoved.mem_iff.symm⟩

theorem deallocate (h : Shares pool free live) {slot : Slot} (hslot : slot ∈ live) :
    Shares (pool.deallocate (some slot)) (slot :: free) (live.erase slot) := by
  have hmoved : (slot :: free ++ live.erase slot).Perm (free ++ live) :=
    List.perm_middle.symm.trans ((List.perm_cons_erase hslot).symm.append_left free)
  have hfree : slot ∉ free := fun hmem =>
    (List.nodup_append'.mp h.nodup).2.2 hmem hslot
  exact ⟨h.linked.cons hfree, hmoved.nodup_iff.mpr h.nodup,
    fun s => (h.owns s).trans hmoved.mem_iff.symm⟩

/-- `allocate` hands out a slot of the pool that was free. -/
theorem allocate (h : Shares pool free live) :
    ∃ slot free', pool.allocate.2 = some slot ∧ slot ∉ live ∧
      Shares pool.allocate.1 free' (slot :: live) := by
  have hready : ∃ slot free', Shares (if pool.freeHead = none then pool.allocateBlock else pool)
      (slot :: free') live := by
    split
    · have hblock := h.allocateBlock
      cases hslots : slots pool.blocks.length pool.blockSize ++ free with
      | nil =>
        have hempty := hblock.linked
        rw [hslots] at hempty
        cases hempty
      | cons slot free' =>
        rw [hslots] at hblock
        exact ⟨slot, free', hblock⟩
    · rename_i hhead
      cases free with
      | nil => exact absurd h.linked hhead
      | cons slot free' => exact ⟨slot, free', h⟩
  obtain ⟨slot, free', hshares⟩ := hready
  have hslot : slot ∉ live := fun hlive =>
    (List.nodup_append'.mp hshares.nodup).2.2 List.mem_cons_self hlive
  unfold MemoryPool.allocate
  dsimp only
  rw [hshares.linked.1]
  exact ⟨slot, free', rfl, hslot, hshares.pop⟩

end Shares

theorem shares_new (initialCapacity blockSize : Nat) :
    ∃ free, Shares (.new initialCapacity blockSize) free [] := by
  unfold MemoryPool.new
  dsimp only
  split
  · exact ⟨_, (Shares.empty initialCapacity _).allocateBlock.resize _⟩
  · exact ⟨[], .empty _ _⟩

/-! ## Runs -/

theorem live_append_allocated (out : List Output) (slot : Slot) :
    live (out ++ [.allocated slot]) = slot :: live out := by
  simp [live]

theorem live_append_destroyed (out : List Output) (slot : Slot) :
    live (out ++ [.destroyed slot]) = (live out).erase slot := by
  simp [live]

theorem step_allocate {pool : MemoryPool} {slot : Slot} (h : pool.allocate.2 = some slot) :
    step pool .allocate = (pool.allocate.1, [.allocated slot]) := by
  unfold step
  generalize pool.allocate = r at *
  obtain ⟨pool', ptr⟩ := r
  cases h
  rfl

/-- **Every call shares the slots anew.** -/
theorem shares_step {out : List Output} {pool : MemoryPool} {i : Input}
    (h : ∃ free, Shares pool free (live out))
    (hi : ∀ slot, i = .deallocate (some slot) → slot ∈ live out) :
    ∃ free, Shares (step pool i).1 free (live (out ++ (step pool i).2)) := by
  obtain ⟨free, h⟩ := h
  cases i with
  | allocate =>
    obtain ⟨slot, free', hslot, -, hshares⟩ := h.allocate
    rw [step_allocate hslot, live_append_allocated]
    exact ⟨free', hshares⟩
  | deallocate ptr =>
    cases ptr with
    | none =>
      have hnone : step pool (.deallocate none) = (pool, []) := rfl
      rw [hnone, List.append_nil]
      exact ⟨free, h⟩
    | some slot =>
      have hsome : step pool (.deallocate (some slot)) =
          (pool.deallocate (some slot), [.destroyed slot]) := rfl
      rw [hsome, live_append_destroyed]
      exact ⟨slot :: free, h.deallocate (hi slot rfl)⟩

theorem shares_run {initialCapacity blockSize : Nat} {inputs : List Input}
    (h : Guarded step (Valid initialCapacity blockSize) [] (.new initialCapacity blockSize) inputs) :
    ∃ free, Shares (run step (.new initialCapacity blockSize) inputs).1 free
      (live (outputs step (.new initialCapacity blockSize) inputs)) := by
  have hinv := invariant_run
    (fun past out pool => out = outputs step (.new initialCapacity blockSize) past ∧
      pool = (run step (.new initialCapacity blockSize) past).1 ∧
        ∃ free, Shares pool free (live out))
    (fun past out pool i hinv hi => ?_) ⟨rfl, rfl, shares_new initialCapacity blockSize⟩ h
  · exact hinv.2.2
  · obtain ⟨rfl, rfl, hshares⟩ := hinv
    refine ⟨?_, ?_, shares_step hshares ?_⟩
    · rw [outputs_append, outputs_cons, outputs_nil, List.append_nil]
    · rw [run_append]
      rfl
    · rintro slot rfl
      exact hi

/-- **A live slot is never handed out.** For every size of the first block and of the
later ones, and every sequence of calls in which what is deallocated is null or lives:
the free list ends and repeats nothing, and no slot of it is live; free and live slots
are the slots of all blocks; the next `allocate` returns a slot of them that is not
live. -/
theorem never_live {initialCapacity blockSize : Nat} {inputs : List Input}
    (h : Guarded step (Valid initialCapacity blockSize) [] (.new initialCapacity blockSize) inputs) :
    let pool := (run step (.new initialCapacity blockSize) inputs).1
    let liveSlots := live (outputs step (.new initialCapacity blockSize) inputs)
    (∃ free, Linked pool.next pool.freeHead free ∧ free.Nodup ∧ liveSlots.Nodup ∧
      (∀ slot ∈ free, slot ∉ liveSlots) ∧
      ∀ slot, pool.Owns slot ↔ slot ∈ free ∨ slot ∈ liveSlots) ∧
    ∃ slot, (step pool .allocate).2 = [.allocated slot] ∧ slot ∉ liveSlots ∧
      (step pool .allocate).1.Owns slot := by
  intro pool liveSlots
  obtain ⟨free, hshares⟩ : ∃ free, Shares pool free liveSlots := shares_run h
  obtain ⟨hfree, hlive, hdisjoint⟩ := List.nodup_append'.mp hshares.nodup
  constructor
  · exact ⟨free, hshares.linked, hfree, hlive, fun slot hslot hlive => hdisjoint hslot hlive,
      fun slot => (hshares.owns slot).trans List.mem_append⟩
  · obtain ⟨slot, free', hslot, hnot, hnext⟩ := hshares.allocate
    rw [step_allocate hslot]
    exact ⟨slot, rfl, hnot, (hnext.owns slot).mpr (by simp)⟩

/-- Three objects in a pool of two slots and blocks of one; the second is deallocated. -/
def threeObjects : List Input :=
  [.allocate, .allocate, .allocate, .deallocate (some ⟨0, 1⟩), .deallocate none]

theorem threeObjects_reuse :
    live (outputs step (.new 2 1) threeObjects) = [⟨1, 0⟩, ⟨0, 0⟩] ∧
      ∃ slot, (step (run step (.new 2 1) threeObjects).1 .allocate).2 = [.allocated slot] ∧
        slot ∉ live (outputs step (.new 2 1) threeObjects) := by
  have hcalls : Guarded step (Valid 2 1) [] (.new 2 1) threeObjects := by decide
  obtain ⟨slot, hslot, hnot, -⟩ := (never_live hcalls).2
  exact ⟨by decide, slot, hslot, hnot⟩

end TradePlat.Memory
