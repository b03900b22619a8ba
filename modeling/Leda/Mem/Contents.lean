import Leda.Mem.Owners

/-!
# What is in an array

An array is a value: nothing that is done to other arrays changes what a program sees of it,
and what is written into it is what is read.  In `memarray.c`, this rests on memory alone:
arrays are blocks of one heap, and `newindex` writes to an address.  That no two arrays have a
block in common (`Sound`) makes the difference.

And an array that is sent with `to_ptr` and `from_ptr` is moved: it arrives as it was, however
long that takes, and whatever the program does in the meantime; the array it was can no
longer be used.
-/

namespace Leda.Mem

open Leda.Lib List

/-- The array a call is on. -/
def Op.target : Op → Option ArrayId
  | .call .. | .fromPtr .. => none
  | .realloc a .. | .index a _ | .newindex a .. | .ptr a _ | .toPtr a | .toStr a | .fromStr a _
  | .toNetstr a | .fromNetstr a _ | .gc a => some a

/-- What a program sees of an array. -/
structure Seen where
  elem : UInt64 → Xfer Value
  string : Xfer Value
  netString : Xfer Value

/-- What a program sees of an array, by reading it. -/
def World.see (w : Host) (σ : World) (a : ArrayId) : Seen where
  elem n := (σ.act w (.index a n)).2
  string := (σ.act w (.toStr a)).2
  netString := (σ.act w (.toNetstr a)).2

/-! ## What is seen depends on the block of an array -/

namespace Memarray.Fits

variable {w : Host} {h h' : Blocks} {m : Memarray} {off n : Nat}

theorem readAt_congr (hm : m.Fits w h) (hb : ∀ b ∈ m.owned, h'.block b = h.block b) :
    Mem.readAt h' (m.data.map fun p ↦ p.add off) n =
      Mem.readAt h (m.data.map fun p ↦ p.add off) n := by
  cases hd : m.data with
  | none => rfl
  | some p =>
      have hi : m.inherited = false := by
        by_contra hi
        rw [(hm.borrowed (by simpa using hi)).1] at hd
        cases hd
      have hblock := hb p.block (mem_owned.2 ⟨hi, p, hd, rfl⟩)
      simp only [Mem.readAt, Option.map_some, Option.bind_some, Blocks.read, Addr.add, hblock]

theorem readAll_congr (hm : m.Fits w h) (hb : ∀ b ∈ m.owned, h'.block b = h.block b) :
    Mem.readAt h' m.data n = Mem.readAt h m.data n := by
  have hr : Mem.readAt h' (m.data.map fun p ↦ p.add 0) n =
      Mem.readAt h (m.data.map fun p ↦ p.add 0) n := hm.readAt_congr hb
  simpa [Addr.add] using hr

theorem index_congr (hm : m.Fits w h) (hb : ∀ b ∈ m.owned, h'.block b = h.block b)
    (k : UInt64) : Mem.index w h' m k = Mem.index w h m k := by
  unfold Mem.index
  simp only [hm.readAt_congr hb]

theorem toStr_congr (hm : m.Fits w h) (hb : ∀ b ∈ m.owned, h'.block b = h.block b) :
    Mem.toStr h' m = Mem.toStr h m := by
  unfold Mem.toStr
  simp only [hm.readAll_congr hb]

theorem toNetstr_congr (hm : m.Fits w h) (hb : ∀ b ∈ m.owned, h'.block b = h.block b) :
    Mem.toNetstr w h' m = Mem.toNetstr w h m := by
  unfold Mem.toNetstr
  simp only [hm.readAll_congr hb]

end Memarray.Fits

/-- An array looks the same wherever its block is the same. -/
theorem World.see_congr {w : Host} {σ σ' : World} {a a' : ArrayId} {m : Memarray}
    (hm : m.Fits w σ.heap) (ha : σ.array a = some m) (ha' : σ'.array a' = some m)
    (hb : ∀ b ∈ m.owned, σ'.heap.block b = σ.heap.block b) : σ'.see w a' = σ.see w a := by
  simp only [World.see, World.act, World.on, ha, ha', hm.index_congr hb, hm.toStr_congr hb,
    hm.toNetstr_congr hb]

/-- And so does a name that is not in use. -/
theorem World.see_none {w : Host} {σ σ' : World} {a : ArrayId} (ha : σ.array a = none)
    (ha' : σ'.array a = none) : σ'.see w a = σ.see w a := by
  simp only [World.see, World.act, World.on, ha, ha']

/-! ## What a call does not touch -/

namespace Memarray.Fits

variable {w : Host} {h h' : Blocks} {m : Memarray} {b : BlockId}

/-- The memory of an array is its own. -/
theorem not_inherited (hm : m.Fits w h) {p : Addr} (hd : m.data = some p) :
    m.inherited = false := by
  by_contra hi
  rw [(hm.borrowed (by simpa using hi)).1] at hd
  cases hd

/-- Writing into an array changes its own block. -/
theorem writeAt_frame (hm : m.Fits w h) {off : Nat} {v : List UInt8}
    (hw : Mem.writeAt h (m.data.map fun p ↦ p.add off) v = some h') (hb : b ∉ m.owned) :
    h'.block b = h.block b := by
  unfold Mem.writeAt at hw
  split at hw
  · obtain rfl := Option.some.inj hw
    rfl
  · obtain ⟨q, hq, hw⟩ := Option.bind_eq_some_iff.1 hw
    obtain ⟨p, hd, rfl⟩ := Option.map_eq_some_iff.1 hq
    have hne : b ≠ (p.add off).block := by
      rintro rfl
      exact hb (mem_owned.2 ⟨hm.not_inherited hd, p, hd, rfl⟩)
    unfold Blocks.write at hw
    split at hw
    · cases hw
    · split at hw
      · obtain rfl := Option.some.inj hw
        exact Function.update_of_ne hne _ _
      · cases hw

theorem writeAll_frame (hm : m.Fits w h) {v : List UInt8}
    (hw : Mem.writeAt h m.data v = some h') (hb : b ∉ m.owned) : h'.block b = h.block b := by
  have hw' : Mem.writeAt h (m.data.map fun p ↦ p.add 0) v = some h' := by
    simpa [Addr.add] using hw
  exact hm.writeAt_frame hw' hb

theorem newindex_frame (hm : m.Fits w h) (n : UInt64) (bits : Nat) (hb : b ∉ m.owned) :
    (Mem.newindex w h m n bits).1.block b = h.block b := by
  unfold Mem.newindex
  split
  · rfl
  · rfl
  · dsimp only
    split
    · rfl
    · split
      · rfl
      · rename_i hw
        exact hm.writeAt_frame hw hb

theorem fromStr_frame (hm : m.Fits w h) (s : List UInt8) (hb : b ∉ m.owned) :
    (Mem.fromStr h m s).1.block b = h.block b := by
  unfold Mem.fromStr
  split
  · rfl
  · rfl
  · split
    · rfl
    · split
      · rfl
      · rename_i hw
        exact hm.writeAll_frame hw hb

theorem fromNetstr_frame (hm : m.Fits w h) (s : List UInt8) (hb : b ∉ m.owned) :
    (Mem.fromNetstr w h m s).1.block b = h.block b := by
  unfold Mem.fromNetstr
  split
  · rfl
  · rfl
  · dsimp only
    split_ifs
    · rfl
    · rfl
    · rfl
    · split
      · rfl
      · rename_i hw
        exact hm.writeAll_frame hw hb
    · rfl
    · split
      · rfl
      · rename_i hw
        exact hm.writeAll_frame hw hb

theorem delete_frame (hm : m.Fits w h) (hd : memarrayDelete h m = some h') (hb : b ∉ m.owned) :
    h'.block b = h.block b ∧ h'.next = h.next := by
  unfold memarrayDelete at hd
  split at hd
  · obtain rfl := Option.some.inj hd
    exact ⟨rfl, rfl⟩
  · split at hd
    · obtain rfl := Option.some.inj hd
      exact ⟨rfl, rfl⟩
    · rename_i p hp
      obtain ⟨-, -, -, hrest, hnext⟩ := Blocks.free_spec hd
      refine ⟨hrest b ?_, hnext⟩
      rintro rfl
      exact hb (mem_owned.2 ⟨hm.not_inherited hp, p, hp, rfl⟩)

theorem realloc_frame (hm : m.Fits w h) (args : ReallocArgs) (mem : Option (Nat → UInt8))
    (hb : b ∉ m.owned) (hn : b ≠ h.next) :
    (Mem.realloc w h m args mem).1.block b = h.block b := by
  unfold Mem.realloc
  split
  · rfl
  · rfl
  · dsimp only
    split
    · rfl
    · split
      · rfl
      · rename_i h' hd
        obtain ⟨hsame, hnext⟩ := hm.delete_frame hd hb
        split
        · exact hsame
        · rw [Blocks.block_alloc_of_ne (hnext ▸ hn), hsame]
        · split <;> exact hsame

end Memarray.Fits

namespace Sound

variable {w : Host} {σ : World} {op : Op} {b : BlockId} {c : ArrayId}

/-- A call leaves the blocks alone that its array does not own. -/
theorem frame (hs : Sound w σ)
    (hb : ∀ a m, op.target = some a → σ.array a = some m → b ∉ m.owned)
    (hn : b ≠ σ.heap.next) : (σ.act w op).1.heap.block b = σ.heap.block b := by
  have hon : ∀ a (f : Memarray → World × Xfer Value), op.target = some a →
      (∀ m, m.Fits w σ.heap → b ∉ m.owned → (f m).1.heap.block b = σ.heap.block b) →
      (σ.on a f).1.heap.block b = σ.heap.block b := by
    intro a f ht hf
    unfold World.on
    cases ha : σ.array a with
    | none => rfl
    | some m => exact hf m (hs.fits a m ha) (hb a m ht ha)
  cases op with
  | call args mem =>
      exact (Memarray.Fits.blank .char).realloc_frame args mem not_mem_nil hn
  | realloc a args mem => exact hon a _ rfl fun m hm hbm ↦ hm.realloc_frame args mem hbm hn
  | index a n => exact hon a _ rfl fun _ _ _ ↦ rfl
  | newindex a n bits => exact hon a _ rfl fun m hm hbm ↦ hm.newindex_frame n bits hbm
  | ptr a n => exact hon a _ rfl fun _ _ _ ↦ rfl
  | toPtr a => exact hon a _ rfl fun _ _ _ ↦ rfl
  | fromPtr p typename length =>
      simp only [World.act]
      split <;> rfl
  | toStr a => exact hon a _ rfl fun _ _ _ ↦ rfl
  | fromStr a s => exact hon a _ rfl fun m hm hbm ↦ hm.fromStr_frame s hbm
  | toNetstr a => exact hon a _ rfl fun _ _ _ ↦ rfl
  | fromNetstr a s => exact hon a _ rfl fun m hm hbm ↦ hm.fromNetstr_frame s hbm
  | gc a =>
      refine hon a _ rfl fun m hm hbm ↦ ?_
      split
      · rfl
      · rename_i hd
        exact (hm.delete_frame hd hbm).1

end Sound

/-- A call leaves the other arrays what they are. -/
theorem World.act_array {w : Host} {σ : World} {op : Op} {c : ArrayId} (hc : op.target ≠ some c)
    (hlt : c < σ.next) : (σ.act w op).1.array c = σ.array c := by
  have hne : c ≠ σ.next := Nat.ne_of_lt hlt
  have hon : ∀ a (f : Memarray → World × Xfer Value), op.target = some a →
      (∀ m, c ≠ a → (f m).1.array c = σ.array c) → (σ.on a f).1.array c = σ.array c := by
    intro a f ht hf
    unfold World.on
    cases ha : σ.array a with
    | none => rfl
    | some m => exact hf m fun he ↦ hc (he ▸ ht)
  cases op with
  | call args mem => simp [World.act, World.put, World.insert, hne]
  | fromPtr p typename length =>
      simp only [World.act]
      split
      · exact Function.update_of_ne hne _ _
      · rfl
  | index a n => exact hon a _ rfl fun _ _ ↦ rfl
  | ptr a n => exact hon a _ rfl fun _ _ ↦ rfl
  | toStr a => exact hon a _ rfl fun _ _ ↦ rfl
  | toNetstr a => exact hon a _ rfl fun _ _ ↦ rfl
  | realloc a args mem => exact hon a _ rfl fun _ h ↦ Function.update_of_ne h _ _
  | newindex a n bits => exact hon a _ rfl fun _ h ↦ Function.update_of_ne h _ _
  | toPtr a => exact hon a _ rfl fun _ h ↦ Function.update_of_ne h _ _
  | fromStr a s => exact hon a _ rfl fun _ h ↦ Function.update_of_ne h _ _
  | fromNetstr a s => exact hon a _ rfl fun _ h ↦ Function.update_of_ne h _ _
  | gc a =>
      refine hon a _ rfl fun m h ↦ ?_
      split
      · rfl
      · exact Function.update_of_ne h _ _

namespace Sound

variable {w : Host} {σ : World} {op : Op} {a c : ArrayId} {m : Memarray}

/-- **A call changes nothing that a program sees of other arrays.** -/
theorem isolated (hs : Sound w σ) (hc : op.target ≠ some c)
    (harray : (σ.act w op).1.array c = σ.array c) : (σ.act w op).1.see w c = σ.see w c := by
  cases hca : σ.array c with
  | none => exact World.see_none hca (harray.trans hca)
  | some n =>
      refine World.see_congr (hs.fits c n hca) hca (harray.trans hca) fun b hb ↦ ?_
      have hbc : b ∈ σ.holds (some c) := by
        rw [World.holds_some hca]
        exact hb
      refine hs.frame (fun a m ht ha hbm ↦ ?_) fun hn ↦ hs.next_notMem _ (hn ▸ hbc)
      rw [← World.holds_some ha] at hbm
      exact hc (ht.trans (hs.exclusive.place_unique hbm hbc))

end Sound

/-! ## What is written is read -/

/-- An element is read as it was written, less the bits that its type has no room for. -/
theorem Host.element_bytes (w : Host) (size bits : Nat) :
    w.element (w.bytes size bits) = bits % 256 ^ size := by
  unfold Host.element Host.bytes
  cases w.littleEndian with
  | true => simp [ofLe_le]
  | false => simp [ofLe_le]

theorem Host.length_bytes (w : Host) (size bits : Nat) : (w.bytes size bits).length = size := by
  unfold Host.bytes
  split <;> simp

/-- Reading an element, where the block is known. -/
theorem index_eq {w : Host} {h : Blocks} {m : Memarray} {k : UInt64} {p : Addr}
    {bytes : List UInt8} (hg : memarrayGet m = .ok m) (hk : ¬ m.length ≤ k - 1)
    (hd : m.data = some p) (ho : p.offset = 0) (hb : h.block p.block = some bytes)
    (hle : (k - 1).toNat * m.type.size w + m.type.size w ≤ bytes.length) :
    Mem.index w h m k = .ok (.element
      (w.element ((bytes.drop ((k - 1).toNat * m.type.size w)).take (m.type.size w)))) := by
  have hts := m.type.size_pos w
  have hle' : (p.add ((k - 1).toNat * m.type.size w)).offset + m.type.size w ≤ bytes.length := by
    simp only [Addr.add, ho]
    omega
  have hr := Blocks.read_eq (p := p.add ((k - 1).toNat * m.type.size w)) hb hle'
  simp only [Addr.add, ho, Nat.zero_add] at hr
  simp only [Mem.index, hg, Xfer.ok_bind, if_neg hk, readAt, if_neg (Nat.ne_of_gt hts), hd,
    Option.map_some, Option.bind_some, Addr.add, ho, Nat.zero_add, hr]

/-- The places of two elements do not overlap. -/
theorem disjoint_elements {i k n : Nat} (h : i ≠ k) :
    i * n + n ≤ k * n ∨ k * n + n ≤ i * n := by
  rw [← Nat.succ_mul, ← Nat.succ_mul]
  rcases Nat.lt_or_gt_of_ne h with h | h
  · exact .inl (Nat.mul_le_mul_right n h)
  · exact .inr (Nat.mul_le_mul_right n h)

namespace Memarray.Fits

variable {w : Host} {h h' : Blocks} {m : Memarray}

/-- **What an assignment does** to an array: this element is the new one, and the others
are what they were. -/
theorem index_newindex (hm : m.Fits w h) {n : UInt64} {bits : Nat}
    (hok : (Mem.newindex w h m n bits).2 = .ok .none) (k : UInt64) :
    Mem.index w (Mem.newindex w h m n bits).1 m k =
      if k = n then .ok (.element (bits % 256 ^ m.type.size w)) else Mem.index w h m k := by
  rcases memarrayGet_cases m with hg | ⟨e, hg⟩
  swap
  · simp [Mem.newindex, hg] at hok
  by_cases hn : m.length ≤ n - 1
  · simp [Mem.newindex, hg, hn] at hok
  have hts := m.type.size_pos w
  have hl := w.length_bytes (m.type.size w) bits
  have hle := hm.element_le hn hg
  obtain ⟨p, bytes, hd, ho, hb, hlen⟩ := hm.inside hg hle (Nat.ne_of_gt hts)
  have hv : (p.add ((n - 1).toNat * m.type.size w)).offset +
      (w.bytes (m.type.size w) bits).length ≤ bytes.length := by
    simp only [Addr.add, ho]
    omega
  obtain ⟨h', hw, hpatch, -, -⟩ := Blocks.write_eq (p := p.add ((n - 1).toNat * m.type.size w))
    hb hv
  have hne : w.bytes (m.type.size w) bits ≠ [] := by
    intro he
    rw [he] at hl
    simp at hl
    omega
  have hnew : Mem.newindex w h m n bits = (h', .ok .none) := by
    simp only [Mem.newindex, hg, if_neg hn, Mem.writeAt, if_neg hne, hd, Option.map_some,
      Option.bind_some, hw]
  rw [hnew]
  simp only [Addr.add, ho, Nat.zero_add] at hpatch hv
  have hlen' := Blocks.length_patch hv
  by_cases hk : m.length ≤ k - 1
  · have hkn : k ≠ n := fun he ↦ hn (he ▸ hk)
    simp only [if_neg hkn, Mem.index, hg, Xfer.ok_bind, if_pos hk]
  have hlek := hm.element_le hk hg
  rw [index_eq hg hk hd ho hpatch (by omega), index_eq hg hk hd ho hb (by omega)]
  by_cases hkn : k = n
  · subst hkn
    have hread := Blocks.take_drop_patch hv
    rw [hl] at hread
    rw [if_pos rfl, hread, w.element_bytes]
  · -- the other element is before or after the one that was written
    have hi : (k - 1).toNat ≠ (n - 1).toNat := by
      intro he
      have he' := UInt64.toNat_inj.1 he
      exact hkn (by simpa using he')
    rw [if_neg hkn, Blocks.take_drop_patch_of_disjoint hv]
    rw [hl]
    exact disjoint_elements hi

end Memarray.Fits

/-- **Arrays are values.**  After any run of calls that a program has seen to, no call changes
what is seen of an array that it is not on; and an assignment changes one element of one array,
to what was assigned. -/
theorem values {w : Host} {σ : World} {tr : List (World × Op)}
    (h : Run (World.step w) .empty tr σ) (hf : ∀ p ∈ tr, p.2.Fair w p.1) :
    (∀ (op : Op) c, op.target ≠ some c → c < σ.next →
      (σ.act w op).1.see w c = σ.see w c) ∧
    ∀ a m n bits, σ.array a = some m → (σ.act w (.newindex a n bits)).2 = .ok .none → ∀ c k,
      ((σ.act w (.newindex a n bits)).1.act w (.index c k)).2 =
        if c = a ∧ k = n then .ok (.element (bits % 256 ^ m.type.size w))
        else (σ.act w (.index c k)).2 := by
  have hs := Sound.run h hf
  refine ⟨fun op c hc hlt ↦ hs.isolated hc (World.act_array hc hlt), ?_⟩
  intro a m n bits ha hok c k
  by_cases hca : c = a
  · subst hca
    simp only [World.act, World.on, ha] at hok ⊢
    simp only [World.put, Function.update_self, true_and]
    exact (hs.fits c m ha).index_newindex hok k
  · have harray : (σ.act w (.newindex a n bits)).1.array c = σ.array c := by
      simp only [World.act, World.on, ha]
      exact Function.update_of_ne hca _ _
    have htarget : (Op.newindex a n bits).target ≠ some c :=
      fun he ↦ hca (Option.some.inj he).symm
    have hsee := hs.isolated htarget harray
    rw [if_neg (fun he ↦ hca he.1)]
    exact congrFun (congrArg Seen.elem hsee) k

theorem values_uints :
    ((((World.first usual).act usual (.newindex 0 2 7)).1).act usual (.index 0 2)).2 =
      .ok (.element (7 % 256 ^ 4)) :=
  (values (World.run_first usual) (World.run_first_fair usual)).2 0 _ 2 7
    (World.first_array usual) rfl 0 2

/-! ## Moving an array -/

/-- Memory with these bytes is on its way, and the array it was taken from cannot be used. -/
structure InTransit (x : Sent) (bytes : List UInt8) (a : ArrayId) (σ : World) : Prop where
  sent : x ∈ σ.sent
  block : σ.heap.block x.addr.block = some bytes
  lt : a < σ.next
  invalid : ∀ m, σ.array a = some m → m.inherited = false ∧ m.data = none

/-- No array is forgotten about. -/
theorem World.next_le {w : Host} {σ : World} {op : Op} : σ.next ≤ (σ.act w op).1.next := by
  have hon : ∀ a (f : Memarray → World × Xfer Value), (∀ m, (f m).1.next = σ.next) →
      σ.next ≤ (σ.on a f).1.next := by
    intro a f hf
    unfold World.on
    split
    · exact Nat.le_of_eq (hf _).symm
    · exact Nat.le_refl _
  cases op with
  | call args mem => exact Nat.le_succ _
  | fromPtr p typename length =>
      simp only [World.act]
      split
      · exact Nat.le_succ _
      · exact Nat.le_refl _
  | gc a =>
      refine hon a _ fun m ↦ ?_
      split <;> rfl
  | _ => exact hon _ _ fun _ ↦ rfl

/-- What is on its way stays on its way, unless it is adopted. -/
theorem World.mem_act_sent {w : Host} {σ : World} {op : Op} {x : Sent} (hx : x ∈ σ.sent)
    (hop : ∀ typename length, op ≠ .fromPtr (some x.addr) typename length) :
    x ∈ (σ.act w op).1.sent := by
  have hon : ∀ a (f : Memarray → World × Xfer Value), (∀ m, x ∈ (f m).1.sent) →
      x ∈ (σ.on a f).1.sent := by
    intro a f hf
    unfold World.on
    split
    · exact hf _
    · exact hx
  cases op with
  | call args mem => exact hx
  | toPtr a => exact hon a _ fun m ↦ mem_append_right _ hx
  | fromPtr p typename length =>
      simp only [World.act]
      split
      · cases p with
        | none => exact hx
        | some p =>
            refine (mem_erase_of_ne ?_).2 hx
            rintro rfl
            exact hop typename length rfl
      · exact hx
  | gc a =>
      refine hon a _ fun m ↦ ?_
      split <;> exact hx
  | _ => exact hon _ _ fun _ ↦ hx

/-- A call on what is no array only raises an error. -/
theorem World.act_of_none {w : Host} {σ : World} {op : Op} {a : ArrayId}
    (ha : σ.array a = none) (ht : op.target = some a) :
    σ.act w op = (σ, .raised "leda_memarray* expected") := by
  cases op with
  | call args mem => cases ht
  | fromPtr p typename length => cases ht
  | _ =>
      obtain rfl := Option.some.inj ht
      simp only [World.act, World.on, ha]

/-- An array whose memory was taken is of no use, but for the garbage collector. -/
theorem World.invalid_act {w : Host} {σ : World} {op : Op} {a : ArrayId} {m : Memarray}
    (ha : σ.array a = some m) (hi : m.inherited = false) (hd : m.data = none)
    (ht : op.target = some a) :
    (op = .gc a ∧ (σ.act w op).1.array a = none) ∨
      (σ.act w op).2 = .raised "Data was invalidated" ∧ (σ.act w op).1.array a = some m := by
  have hg : memarrayGet m = .raised "Data was invalidated" := if_pos ⟨hi, hd⟩
  have hput : ∀ h, (σ.put a h m).array a = some m := fun h ↦ Function.update_self ..
  cases op with
  | call args mem => cases ht
  | fromPtr p typename length => cases ht
  | gc c =>
      obtain rfl : c = a := Option.some.inj ht
      refine .inl ⟨rfl, ?_⟩
      simp only [World.act, World.on, ha, memarrayDelete, hi, hd, Bool.false_eq_true, if_false]
      exact Function.update_self ..
  | realloc c args mem =>
      obtain rfl : c = a := Option.some.inj ht
      simp only [World.act, World.on, ha, Mem.realloc, hg]
      exact .inr ⟨trivial, hput _⟩
  | newindex c n bits =>
      obtain rfl : c = a := Option.some.inj ht
      simp only [World.act, World.on, ha, Mem.newindex, hg]
      exact .inr ⟨trivial, hput _⟩
  | toPtr c =>
      obtain rfl : c = a := Option.some.inj ht
      simp only [World.act, World.on, ha, Mem.toPtr, hg]
      exact .inr ⟨trivial, hput _⟩
  | fromStr c s =>
      obtain rfl : c = a := Option.some.inj ht
      simp only [World.act, World.on, ha, Mem.fromStr, hg]
      exact .inr ⟨trivial, hput _⟩
  | fromNetstr c s =>
      obtain rfl : c = a := Option.some.inj ht
      simp only [World.act, World.on, ha, Mem.fromNetstr, hg]
      exact .inr ⟨trivial, hput _⟩
  | index c n | ptr c n | toStr c | toNetstr c =>
      obtain rfl : c = a := Option.some.inj ht
      simp only [World.act, World.on, ha, Mem.index, Mem.ptr, Mem.toStr, Mem.toNetstr, hg]
      exact .inr ⟨rfl, trivial⟩

namespace InTransit

variable {w : Host} {σ σ' : World} {op : Op} {a : ArrayId} {x : Sent} {bytes : List UInt8}

/-- A call does not touch it. -/
theorem act (ht : InTransit x bytes a σ) (hs : Sound w σ)
    (hop : ∀ typename length, op ≠ .fromPtr (some x.addr) typename length) :
    InTransit x bytes a (σ.act w op).1 := by
  have hx : x.addr.block ∈ σ.holds none := mem_map_of_mem ht.sent
  refine ⟨World.mem_act_sent ht.sent hop, ?_, Nat.lt_of_lt_of_le ht.lt World.next_le, ?_⟩
  · rw [hs.frame (fun c m _ hc hb ↦ ?_) fun hn ↦ hs.next_notMem none (hn ▸ hx)]
    · exact ht.block
    · rw [← World.holds_some hc] at hb
      have he := hs.exclusive.place_unique hx hb
      cases he
  · intro m hm
    by_cases htarget : op.target = some a
    · cases ha : σ.array a with
      | none =>
          rw [World.act_of_none ha htarget, ha] at hm
          cases hm
      | some n =>
          obtain ⟨hi, hd⟩ := ht.invalid n ha
          rcases World.invalid_act (w := w) ha hi hd htarget with ⟨-, hnone⟩ | ⟨-, hsome⟩
          · rw [hm] at hnone
            cases hnone
          · obtain rfl := Option.some.inj (hm.symm.trans hsome)
            exact ⟨hi, hd⟩
    · exact ht.invalid m (World.act_array htarget ht.lt ▸ hm)

/-- Nor does a run of calls. -/
theorem run (ht : InTransit x bytes a σ) (hs : Sound w σ) {tr : List (World × Op)}
    (h : Run (World.step w) σ tr σ') (hf : ∀ p ∈ tr, p.2.Fair w p.1)
    (hop : ∀ p ∈ tr, ∀ typename length, p.2 ≠ .fromPtr (some x.addr) typename length) :
    InTransit x bytes a σ' ∧ Sound w σ' := by
  refine h.invariant (I := fun σ ↦ InTransit x bytes a σ ∧ Sound w σ)
    (C := fun σ op ↦ op.Fair w σ ∧ ∀ typename length, op ≠ .fromPtr (some x.addr) typename length)
    ⟨ht, hs⟩ (fun σ op σ' hI hC hstep ↦ ?_) fun p hp ↦ ⟨hf p hp, hop p hp⟩
  unfold World.step at hstep
  split at hstep
  · cases hstep
  · obtain rfl := Option.some.inj hstep
    exact ⟨hI.1.act hI.2 hC.2, (hI.2.act hC.1).2⟩

end InTransit

/-- **An array that is sent arrives as it was.**  Between `to_ptr`, which the `__wrap` hook of
`memarray.lua` calls for the sender, and the `from_ptr` of the receiver, anything may happen,
if only nobody else adopts the memory: then `from_ptr` may be called, and makes an array of
which everything is seen that was seen of the one that was sent.  All calls on that one
raise an error, until it is collected. -/
theorem arrives {w : Host} {σ σ' : World} {tr tr' : List (World × Op)} {a : ArrayId}
    {m : Memarray} {p : Addr} (h : Run (World.step w) .empty tr σ)
    (hf : ∀ p ∈ tr, p.2.Fair w p.1) (ha : σ.array a = some m) (hd : m.data = some p)
    (h' : Run (World.step w) (σ.act w (.toPtr a)).1 tr' σ') (hf' : ∀ p ∈ tr', p.2.Fair w p.1)
    (hop : ∀ q ∈ tr', ∀ typename length, q.2 ≠ .fromPtr (some p) typename length) :
    (σ.act w (.toPtr a)).2 = .ok (.lightuserdata (some p)) ∧
      (Op.fromPtr (some p) (some m.type.name) m.length).Fair w σ' ∧
      (σ'.act w (.fromPtr (some p) (some m.type.name) m.length)).1.see w σ'.next = σ.see w a ∧
      ∀ op : Op, op.target = some a → op ≠ .gc a → ∃ e, (σ'.act w op).2 = .raised e := by
  have hs := Sound.run h hf
  have hm := hs.fits a m ha
  have hi := hm.not_inherited hd
  have hg : memarrayGet m = .ok m := if_neg fun hn ↦ by
    rw [hd] at hn
    cases hn.2
  obtain ⟨ho, hn, bytes, hb, hlen⟩ := hm.own hi p hd
  have hact : σ.act w (.toPtr a) =
      ({ σ.put a σ.heap { m with data := none } with sent := ⟨p, m.type, m.length⟩ :: σ.sent },
        .ok (.lightuserdata (some p))) := by
    simp only [World.act, World.on, ha, Mem.toPtr, hg, World.handOut, hi, hd,
      Bool.false_eq_true, if_false, Option.map_some]
    rfl
  have hlt : a < σ.next := by
    by_contra hlt
    rw [hs.fresh a (Nat.le_of_not_lt hlt)] at ha
    cases ha
  have ht : InTransit ⟨p, m.type, m.length⟩ bytes a (σ.act w (.toPtr a)).1 := by
    rw [hact]
    refine ⟨mem_cons_self, hb, hlt, fun n hn ↦ ?_⟩
    simp only [World.put, Function.update_self, Option.some.injEq] at hn
    subst hn
    exact ⟨hi, rfl⟩
  obtain ⟨ht', hs'⟩ := ht.run (hs.toPtr ha).2 h' hf' hop
  have hx := hs'.sentFits _ ht'.sent
  have hsize : byteSize w m.type m.length = m.size := by
    rw [← UInt64.toNat_inj, toNat_byteSize hx.lt, hn]
  have hm' : (⟨byteSize w m.type m.length, m.length, m.type, false, some p⟩ : Memarray) = m := by
    rw [hsize, ← hi, ← hd]
  refine ⟨by rw [hact], ⟨m.type.name, rfl, fun t hty q hq ↦ ?_⟩, ?_, fun op htarget hgc ↦ ?_⟩
  · obtain rfl := Option.some.inj ((getMemtype_name m.type).symm.trans hty)
    obtain rfl := Option.some.inj hq
    exact ht'.sent
  · refine World.see_congr hm ha ?_ fun b hb' ↦ ?_
    · simp only [World.act, Mem.fromPtr, getMemtype_name, hm']
      exact Function.update_self ..
    · obtain ⟨-, q, hq, rfl⟩ := Memarray.mem_owned.1 hb'
      obtain rfl := Option.some.inj (hd.symm.trans hq)
      simp only [World.act, Mem.fromPtr, getMemtype_name]
      exact ht'.block.trans hb.symm
  · cases ha' : σ'.array a with
    | none => exact ⟨_, by rw [World.act_of_none ha' htarget]⟩
    | some n =>
        obtain ⟨hni, hnd⟩ := ht'.invalid n ha'
        rcases World.invalid_act (w := w) ha' hni hnd htarget with ⟨he, -⟩ | ⟨he, -⟩
        · exact absurd he hgc
        · exact ⟨_, he⟩

/-- While an array is on its way, another one is made. -/
theorem arrives_uints :
    ((((((World.first usual).act usual (.toPtr 0)).1.act usual uints).1).act usual
      (.fromPtr (some ⟨0, 0⟩) (some "uint") 2)).1).see usual 2 = (World.first usual).see usual 0 :=
  (arrives (World.run_first usual) (World.run_first_fair usual) (World.first_array usual) rfl
    (World.run_uints usual _)
    (fun q hq ↦ by
      rw [mem_singleton.1 hq]
      exact uints_fair usual _)
    (fun q hq typename length ↦ by
      rw [mem_singleton.1 hq]
      exact nofun)).2.2.1

end Leda.Mem
