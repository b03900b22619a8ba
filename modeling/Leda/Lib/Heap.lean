import Mathlib.Data.List.Nodup
import Mathlib.Logic.Function.Basic

/-!
# A heap of blocks

What `malloc` and `free` give a program: blocks of bytes, each live from its allocation until
it is freed, and never at the place of an earlier one.  A pointer is a block and an offset.
Reading, writing and freeing are partial, and `none` stands for what the C standard leaves
undefined: an access that is not inside one live block, a `free` of anything but the start
of one.  "No operation is undefined" then says that memory is never accessed after it was
freed and never freed twice, and "no block is live" that nothing has leaked.

Each operation has a lemma for the block it is about and one for the others.  Of a program
that allocates or frees several blocks, `Grown` and `Freed` say which these are.
-/

namespace Leda.Lib

/-- The identity of a block. -/
abbrev BlockId := Nat

/-- A heap; blocks from `next` on have not been allocated yet. -/
structure Blocks where
  block : BlockId → Option (List UInt8)
  next : BlockId
  fresh : ∀ b, next ≤ b → block b = none

/-- A place in memory. -/
structure Addr where
  block : BlockId
  offset : Nat
deriving Repr, DecidableEq

/-- The place `n` bytes further on. -/
def Addr.add (p : Addr) (n : Nat) : Addr := ⟨p.block, p.offset + n⟩

namespace Blocks

/-- Nothing is allocated. -/
def empty : Blocks := ⟨fun _ ↦ none, 0, fun _ _ ↦ rfl⟩

/-- A block is live. -/
def Live (h : Blocks) (b : BlockId) : Prop := (h.block b).isSome

/-- Replace the bytes of a block that was allocated before. -/
def set (h : Blocks) (b : BlockId) (v : Option (List UInt8)) (hb : b < h.next) : Blocks where
  block := Function.update h.block b v
  next := h.next
  fresh c hc := by
    have hne : c ≠ b := Nat.ne_of_gt (Nat.lt_of_lt_of_le hb hc)
    rw [Function.update_of_ne hne]
    exact h.fresh c hc

/-- Allocate a block with these bytes. -/
def alloc (h : Blocks) (bytes : List UInt8) : Blocks where
  block := Function.update h.block h.next (some bytes)
  next := h.next + 1
  fresh c hc := by
    have hne : c ≠ h.next := Nat.ne_of_gt hc
    rw [Function.update_of_ne hne]
    exact h.fresh c (Nat.le_of_succ_le hc)

/-- A block that is live was allocated. -/
theorem lt_next {h : Blocks} {b : BlockId} {bytes : List UInt8} (hb : h.block b = some bytes) :
    b < h.next := by
  by_contra hn
  rw [h.fresh b (Nat.le_of_not_lt hn)] at hb
  cases hb

/-- `free` of the place `p`. -/
def free (h : Blocks) (p : Addr) : Option Blocks :=
  if hp : p.offset = 0 ∧ p.block < h.next ∧ (h.block p.block).isSome then
    some (h.set p.block none hp.2.1)
  else none

/-- The `n` bytes from `p` on. -/
def read (h : Blocks) (p : Addr) (n : Nat) : Option (List UInt8) :=
  (h.block p.block).bind fun bytes ↦
    if p.offset + n ≤ bytes.length then some ((bytes.drop p.offset).take n) else none

/-- A block with other bytes from `off` on. -/
def patch (bytes : List UInt8) (off : Nat) (v : List UInt8) : List UInt8 :=
  bytes.take off ++ v ++ bytes.drop (off + v.length)

/-- Write bytes from `p` on. -/
def write (h : Blocks) (p : Addr) (v : List UInt8) : Option Blocks :=
  match hb : h.block p.block with
  | none => none
  | some bytes =>
      if p.offset + v.length ≤ bytes.length then
        some (h.set p.block (some (patch bytes p.offset v)) (lt_next hb))
      else none

variable {h h' : Blocks} {b : BlockId} {p : Addr} {n : Nat} {v bytes : List UInt8}

@[simp] theorem block_alloc_self : (h.alloc bytes).block h.next = some bytes :=
  Function.update_self ..

theorem block_alloc_of_ne (hb : b ≠ h.next) : (h.alloc bytes).block b = h.block b :=
  Function.update_of_ne hb _ _

/-- What is live stays where it is when more is allocated. -/
theorem block_alloc (hb : h.block b = some v) : (h.alloc bytes).block b = some v := by
  rw [block_alloc_of_ne (Nat.ne_of_lt (lt_next hb)), hb]

/-- A live block can be freed at its start. -/
theorem exists_free (hb : h.block b = some bytes) : ∃ h', h.free ⟨b, 0⟩ = some h' := by
  refine ⟨h.set b none (lt_next hb), dif_pos ⟨rfl, lt_next hb, ?_⟩⟩
  rw [hb]
  rfl

/-- What was freed is not live, and the rest is as before. -/
theorem free_spec (hf : h.free p = some h') :
    p.offset = 0 ∧ (∃ bytes, h.block p.block = some bytes) ∧ h'.block p.block = none ∧
      (∀ b, b ≠ p.block → h'.block b = h.block b) ∧ h'.next = h.next := by
  unfold free at hf
  split at hf
  · rename_i hp
    obtain rfl := Option.some.inj hf
    exact ⟨hp.1, Option.isSome_iff_exists.1 hp.2.2, Function.update_self ..,
      fun b hb ↦ Function.update_of_ne hb _ _, rfl⟩
  · cases hf

/-- Reading inside a live block. -/
theorem read_eq (hb : h.block p.block = some bytes) (hn : p.offset + n ≤ bytes.length) :
    h.read p n = some ((bytes.drop p.offset).take n) := by
  unfold read
  rw [hb]
  exact if_pos hn

@[simp] theorem length_patch {off : Nat} (hv : off + v.length ≤ bytes.length) :
    (patch bytes off v).length = bytes.length := by
  simp only [patch, List.length_append, List.length_take, List.length_drop]
  omega

/-- Writing inside a live block changes this block. -/
theorem write_eq (hb : h.block p.block = some bytes) (hv : p.offset + v.length ≤ bytes.length) :
    ∃ h', h.write p v = some h' ∧ h'.block p.block = some (patch bytes p.offset v) ∧
      (∀ b, b ≠ p.block → h'.block b = h.block b) ∧ h'.next = h.next := by
  refine ⟨h.set p.block (some (patch bytes p.offset v)) (lt_next hb), ?_, Function.update_self ..,
    fun b hb ↦ Function.update_of_ne hb _ _, rfl⟩
  unfold write
  split
  · rename_i hn
    rw [hb] at hn
    cases hn
  · rename_i bytes' hb'
    obtain rfl := Option.some.inj (hb.symm.trans hb')
    rw [if_pos hv]

/-- Overwriting all of a block. -/
theorem patch_all (hv : v.length = bytes.length) : patch bytes 0 v = v := by
  simp [patch, hv]

/-- The bytes that were written are the bytes that are read. -/
theorem take_drop_patch {off : Nat} (hv : off + v.length ≤ bytes.length) :
    ((patch bytes off v).drop off).take v.length = v := by
  have hl : (bytes.take off).length = off := by
    rw [List.length_take]
    omega
  have hd : (patch bytes off v).drop off = v ++ bytes.drop (off + v.length) := by
    unfold patch
    rw [List.append_assoc]
    exact List.drop_left' hl
  rw [hd]
  exact List.take_left' rfl

/-- A byte of a block after a write. -/
theorem getElem?_patch {off i : Nat} (hv : off + v.length ≤ bytes.length)
    (hi : i < off ∨ off + v.length ≤ i) : (patch bytes off v)[i]? = bytes[i]? := by
  have hl : (bytes.take off).length = off := by
    rw [List.length_take]
    omega
  unfold patch
  rw [List.append_assoc]
  rcases hi with hi | hi
  · rw [List.getElem?_append_left (by omega), List.getElem?_take_of_lt hi]
  · rw [List.getElem?_append_right (by omega), hl, List.getElem?_append_right (by omega),
      List.getElem?_drop]
    congr 1
    omega

/-- And the bytes that were not written are as before. -/
theorem take_drop_patch_of_disjoint {off i : Nat} (hv : off + v.length ≤ bytes.length)
    (hi : i + n ≤ off ∨ off + v.length ≤ i) :
    ((patch bytes off v).drop i).take n = (bytes.drop i).take n := by
  apply List.ext_getElem?
  intro k
  by_cases hk : k < n
  · rw [List.getElem?_take_of_lt hk, List.getElem?_take_of_lt hk, List.getElem?_drop,
      List.getElem?_drop]
    exact getElem?_patch hv (by omega)
  · rw [List.getElem?_take_eq_none (Nat.le_of_not_lt hk),
      List.getElem?_take_eq_none (Nat.le_of_not_lt hk)]

/-! ## Several operations -/

/-- These blocks, and no others, were allocated. -/
structure Grown (h : Blocks) (bs : List BlockId) (h' : Blocks) : Prop where
  nodup : bs.Nodup
  new : ∀ b ∈ bs, h.next ≤ b ∧ h'.Live b
  old : ∀ b, b ∉ bs → h'.block b = h.block b
  le : h.next ≤ h'.next

/-- These blocks, and no others, were freed. -/
structure Freed (h : Blocks) (bs : List BlockId) (h' : Blocks) : Prop where
  gone : ∀ b ∈ bs, h'.block b = none
  old : ∀ b, b ∉ bs → h'.block b = h.block b
  next : h'.next = h.next

variable {h'' : Blocks} {bs cs : List BlockId}

/-- A block that is live was allocated. -/
theorem Live.lt_next (hb : h.Live b) : b < h.next := by
  obtain ⟨bytes, hb⟩ := Option.isSome_iff_exists.1 hb
  exact Blocks.lt_next hb

theorem Live.of_eq (hb : h.Live b) (he : h'.block b = h.block b) : h'.Live b := by
  unfold Live
  rw [he]
  exact hb

namespace Grown

theorem refl (h : Blocks) : Grown h [] h where
  nodup := List.nodup_nil
  new _ hb := absurd hb List.not_mem_nil
  old _ _ := rfl
  le := Nat.le_refl _

theorem alloc (h : Blocks) (bytes : List UInt8) : Grown h [h.next] (h.alloc bytes) where
  nodup := List.nodup_singleton _
  new b hb := by
    obtain rfl := List.mem_singleton.1 hb
    refine ⟨Nat.le_refl _, ?_⟩
    unfold Live
    rw [block_alloc_self]
    rfl
  old b hb := block_alloc_of_ne fun he ↦ hb (List.mem_singleton.2 he)
  le := Nat.le_succ _

theorem trans (h₁ : Grown h bs h') (h₂ : Grown h' cs h'') : Grown h (bs ++ cs) h'' where
  nodup := by
    refine List.nodup_append'.2 ⟨h₁.nodup, h₂.nodup, fun b hb hc ↦ ?_⟩
    exact Nat.not_le_of_lt (h₁.new b hb).2.lt_next (h₂.new b hc).1
  new b hb := by
    rcases List.mem_append.1 hb with hb | hb
    · obtain ⟨hle, hl⟩ := h₁.new b hb
      refine ⟨hle, hl.of_eq (h₂.old b fun hc ↦ ?_)⟩
      exact Nat.not_le_of_lt hl.lt_next (h₂.new b hc).1
    · exact ⟨Nat.le_trans h₁.le (h₂.new b hb).1, (h₂.new b hb).2⟩
  old b hb := by
    rw [List.mem_append, not_or] at hb
    rw [h₂.old b hb.2, h₁.old b hb.1]
  le := Nat.le_trans h₁.le h₂.le

theorem perm (hg : Grown h bs h') (hp : bs.Perm cs) : Grown h cs h' where
  nodup := hp.nodup_iff.1 hg.nodup
  new b hb := hg.new b (hp.mem_iff.2 hb)
  old b hb := hg.old b fun hm ↦ hb (hp.mem_iff.1 hm)
  le := hg.le

/-- What was live is not among them, and as it was. -/
theorem keeps (hg : Grown h bs h') (hb : h.Live b) : b ∉ bs ∧ h'.block b = h.block b := by
  have hn : b ∉ bs := fun hm ↦ Nat.not_le_of_lt hb.lt_next (hg.new b hm).1
  exact ⟨hn, hg.old b hn⟩

end Grown

namespace Freed

theorem refl (h : Blocks) : Freed h [] h :=
  ⟨fun _ hb ↦ absurd hb List.not_mem_nil, fun _ _ ↦ rfl, rfl⟩

theorem free (hf : h.free p = some h') : Freed h [p.block] h' := by
  obtain ⟨-, -, hgone, hold, hnext⟩ := free_spec hf
  refine ⟨fun b hb ↦ ?_, fun b hb ↦ hold b fun he ↦ hb (List.mem_singleton.2 he), hnext⟩
  obtain rfl := List.mem_singleton.1 hb
  exact hgone

theorem trans (h₁ : Freed h bs h') (h₂ : Freed h' cs h'') : Freed h (bs ++ cs) h'' where
  gone b hb := by
    by_cases hc : b ∈ cs
    · exact h₂.gone b hc
    · rw [h₂.old b hc]
      exact h₁.gone b ((List.mem_append.1 hb).resolve_right hc)
  old b hb := by
    rw [List.mem_append, not_or] at hb
    rw [h₂.old b hb.2, h₁.old b hb.1]
  next := h₂.next.trans h₁.next

theorem congr (hf : Freed h bs h') (he : ∀ b, b ∈ bs ↔ b ∈ cs) : Freed h cs h' :=
  ⟨fun b hb ↦ hf.gone b ((he b).2 hb), fun b hb ↦ hf.old b fun hm ↦ hb ((he b).1 hm), hf.next⟩

theorem not_live (hf : Freed h bs h') (hb : b ∈ bs) : ¬ h'.Live b := by
  unfold Live
  rw [hf.gone b hb]
  exact Bool.false_ne_true

end Freed

/-- Freeing all that was allocated restores the heap. -/
theorem Grown.freed (hg : Grown h bs h') (hf : Freed h' bs h'') : Grown h [] h'' where
  nodup := List.nodup_nil
  new _ hb := absurd hb List.not_mem_nil
  old b _ := by
    by_cases hb : b ∈ bs
    · rw [hf.gone b hb, h.fresh b (hg.new b hb).1]
    · rw [hf.old b hb, hg.old b hb]
  le := Nat.le_trans hg.le (Nat.le_of_eq hf.next.symm)

end Blocks

end Leda.Lib
