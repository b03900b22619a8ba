import Leda.Mem.Contents

/-!
# Arrays on other machines

`to_netstr` writes the elements of an array most significant byte first, whatever the machine,
and `from_netstr` reads them so: an array travels between machines of different byte order.
All that is asked of these is that they agree on the size of the type, which for `long` they
may not; then `from_netstr` raises an error.

The `__persist` hook of `memarray.lua`, which is what an event to another process goes
through, uses `to_str` and `from_str`, the memory as it is.  Between machines of different
byte order each element then arrives as the number with its bytes in the opposite order.
-/

namespace Leda.Mem

open Leda.Lib List

/-- Bytes between the order of the host and that of the network. -/
def Host.net (w : Host) (bs : List UInt8) : List UInt8 :=
  if w.littleEndian then bs.reverse else bs

namespace Host

variable {w : Host} {bs : List UInt8}

theorem net_net : w.net (w.net bs) = bs := by
  unfold net
  split <;> simp

theorem element_eq : w.element bs = ofLe (w.net bs).reverse := by
  unfold element net
  split <;> simp

end Host

/-! ## Items -/

/-- The bytes of the item `i`. -/
def item (size i : Nat) (bs : List UInt8) : List UInt8 := (bs.drop (i * size)).take size

theorem length_item {size i n : Nat} {bs : List UInt8} (hi : i < n) (hl : bs.length = n * size) :
    (item size i bs).length = size := by
  have hle : (i + 1) * size ≤ n * size := Nat.mul_le_mul_right size hi
  rw [Nat.succ_mul] at hle
  unfold item
  rw [length_take, length_drop]
  omega

/-- The loops swap item by item. -/
theorem item_swapItems {size : Nat} : ∀ {n i : Nat} {bs : List UInt8}, i < n →
    bs.length = n * size → item size i (swapItems size n bs) = (item size i bs).reverse
  | 0, _, _, hi, _ => absurd hi (Nat.not_lt_zero _)
  | n + 1, i, bs, hi, hl => by
      rw [Nat.succ_mul] at hl
      have hfirst : (bs.take size).reverse.length = size := by
        rw [length_reverse, length_take]
        omega
      unfold item swapItems
      cases i with
      | zero =>
          rw [Nat.zero_mul, drop_zero, drop_zero]
          exact take_left' hfirst
      | succ i =>
          have hrest : (bs.drop size).length = n * size := by
            rw [length_drop]
            omega
          have ih := item_swapItems (Nat.lt_of_succ_lt_succ hi) hrest
          unfold item at ih
          rw [Nat.succ_mul, Nat.add_comm (i * size) size, ← drop_drop, ← drop_drop,
            drop_left' hfirst, ih]

/-- What `to_netstr` makes of the bytes of an array, and `from_netstr` of those of a string. -/
def Host.netItems (w : Host) (size n : Nat) (bs : List UInt8) : List UInt8 :=
  if w.littleEndian ∧ size ≠ 1 then swapItems size n bs else bs

theorem item_netItems {w : Host} {size n i : Nat} {bs : List UInt8} (hi : i < n)
    (hl : bs.length = n * size) : item size i (w.netItems size n bs) = w.net (item size i bs) := by
  unfold Host.netItems Host.net
  cases w.littleEndian with
  | false => simp
  | true =>
      by_cases h1 : size = 1
      · -- a byte has no other order
        obtain ⟨b, hb⟩ := length_eq_one_iff.1 ((length_item hi hl).trans h1)
        simp [h1, h1 ▸ hb]
      · simpa [h1] using item_swapItems hi hl

theorem length_netItems {w : Host} {size n : Nat} {bs : List UInt8} (hl : bs.length = n * size) :
    (w.netItems size n bs).length = n * size := by
  unfold Host.netItems
  split
  · exact Memarray.Fits.length_swapItems size n bs (Nat.le_of_eq hl.symm)
  · exact hl

/-! ## An array with its bytes -/

/-- An array and what its memory holds. -/
structure Memarray.Has (w : Host) (h : Blocks) (m : Memarray) (p : Addr) (bytes : List UInt8) :
    Prop where
  data : m.data = some p
  offset : p.offset = 0
  block : h.block p.block = some bytes
  length : bytes.length = m.length.toNat * m.type.size w
  size : m.size.toNat = m.length.toNat * m.type.size w

theorem Memarray.Fits.has {w : Host} {h : Blocks} {m : Memarray} {p : Addr} (hm : m.Fits w h)
    (hd : m.data = some p) : ∃ bytes, m.Has w h p bytes := by
  obtain ⟨ho, hn, bytes, hb, hl⟩ := hm.own (hm.not_inherited hd) p hd
  exact ⟨bytes, hd, ho, hb, hl.trans hn, hn⟩

namespace Memarray.Has

variable {w : Host} {h : Blocks} {m : Memarray} {p : Addr} {bytes s : List UInt8}

theorem get (hm : m.Has w h p bytes) : memarrayGet m = .ok m := by
  refine if_neg fun hn ↦ ?_
  rw [hm.data] at hn
  cases hn.2

/-- Element by element. -/
theorem index_eq (hm : m.Has w h p bytes) (k : UInt64) :
    Mem.index w h m k =
      if m.length ≤ k - 1 then .raised "index out of range"
      else .ok (.element (w.element (item (m.type.size w) (k - 1).toNat bytes))) := by
  by_cases hk : m.length ≤ k - 1
  · simp only [Mem.index, hm.get, Xfer.ok_bind, if_pos hk]
  · rw [if_neg hk]
    refine Mem.index_eq hm.get hk hm.data hm.offset hm.block ?_
    rw [UInt64.le_iff_toNat_le] at hk
    rw [hm.length, ← Nat.succ_mul]
    exact Nat.mul_le_mul_right _ (Nat.lt_of_not_le hk)

/-- All of the memory is read. -/
theorem readAt_eq (hm : m.Has w h p bytes) :
    readAt h m.data (m.length.toNat * m.type.size w) = some bytes := by
  unfold readAt
  split
  · rename_i hz
    have hnil : bytes = [] := length_eq_zero_iff.1 (hm.length.trans hz)
    rw [hnil]
  · rw [hm.data, Option.bind_some, ← hm.length]
    have hle : p.offset + bytes.length ≤ bytes.length :=
      Nat.le_of_eq (by rw [hm.offset, Nat.zero_add])
    rw [Blocks.read_eq hm.block hle, hm.offset, drop_zero, take_length]

/-- All of the memory is written. -/
theorem writeAt_eq (hm : m.Has w h p bytes) (hs : s.length = m.length.toNat * m.type.size w) :
    ∃ h', writeAt h m.data s = some h' ∧ m.Has w h' p s := by
  unfold writeAt
  have hlen : s.length = bytes.length := hs.trans hm.length.symm
  by_cases hnil : s = []
  · have hb : bytes = [] := by
      rw [hnil] at hlen
      exact length_eq_zero_iff.1 hlen.symm
    refine ⟨h, if_pos hnil, hm.data, hm.offset, ?_, hs, hm.size⟩
    rw [hm.block, hb, hnil]
  · have hle : p.offset + s.length ≤ bytes.length := by
      rw [hm.offset, Nat.zero_add]
      exact Nat.le_of_eq hlen
    obtain ⟨h', hw, hb, -⟩ := Blocks.write_eq hm.block hle
    refine ⟨h', ?_, hm.data, hm.offset, ?_, hs, hm.size⟩
    · rw [if_neg hnil, hm.data]
      exact hw
    · rw [hb, hm.offset, Blocks.patch_all hlen]

theorem toStr_eq (hm : m.Has w h p bytes) : Mem.toStr h m = .ok (.string bytes) := by
  simp only [Mem.toStr, hm.get, Xfer.ok_bind, hm.size, hm.readAt_eq]

theorem fromStr_eq (hm : m.Has w h p bytes) :
    if m.length.toNat * m.type.size w = s.length then
      ∃ h', Mem.fromStr h m s = (h', .ok .array) ∧ m.Has w h' p s
    else Mem.fromStr h m s = (h, .raised "memarray:to_str size mismatch") := by
  split
  · rename_i hs
    obtain ⟨h', hw, hm'⟩ := hm.writeAt_eq hs.symm
    refine ⟨h', ?_, hm'⟩
    simp only [Mem.fromStr, hm.get, hm.size, hs, ne_eq, not_true_eq_false, if_false, hw]
  · rename_i hs
    simp only [Mem.fromStr, hm.get, hm.size, ne_eq, hs, not_false_eq_true, if_true]

/-- How the items are counted. -/
theorem item_eq (hm : m.Has w h p bytes) (hl : m.length ≠ 0) :
    m.size.toNat / m.length.toNat = m.type.size w ∧
      rounds (m.type.size w) m.size.toNat = m.length.toNat := by
  have hpos : 0 < m.length.toNat := by
    rw [Nat.pos_iff_ne_zero]
    exact fun h0 ↦ hl (UInt64.toNat_inj.1 h0)
  rw [hm.size]
  exact ⟨Nat.mul_div_cancel_left _ hpos, Memarray.Fits.rounds_mul (m.type.size_pos w)⟩

theorem toNetstr_eq (hm : m.Has w h p bytes) (hl : m.length ≠ 0) :
    Mem.toNetstr w h m =
      .ok (.string (w.netItems (m.type.size w) m.length.toNat bytes)) := by
  obtain ⟨hitem, hr⟩ := hm.item_eq hl
  unfold Mem.toNetstr Host.netItems
  rw [hm.get, Xfer.ok_bind, if_neg hl, hitem]
  dsimp only
  by_cases hsw : w.littleEndian ∧ m.type.size w ≠ 1
  · rw [if_pos hsw, if_pos (Memarray.Fits.item_cases hsw.2), hr, hm.readAt_eq, if_pos hsw]
  · rw [if_neg hsw, hm.size, hm.readAt_eq, if_neg hsw]

theorem fromNetstr_eq (hm : m.Has w h p bytes) (hl : m.length ≠ 0) :
    if m.length.toNat * m.type.size w = s.length then
      ∃ h', Mem.fromNetstr w h m s = (h', .ok .none) ∧
        m.Has w h' p (w.netItems (m.type.size w) m.length.toNat s)
    else Mem.fromNetstr w h m s = (h, .raised "memarray:to_netstr size mismatch") := by
  obtain ⟨hitem, hr⟩ := hm.item_eq hl
  split
  · rename_i hs
    obtain ⟨h', hw, hm'⟩ := hm.writeAt_eq (length_netItems (w := w) hs.symm)
    refine ⟨h', ?_, hm'⟩
    unfold Mem.fromNetstr
    unfold Host.netItems at hw
    simp only [hm.get]
    rw [if_neg (not_not.2 (hm.size.trans hs)), if_neg hl, hitem]
    by_cases hsw : w.littleEndian ∧ m.type.size w ≠ 1
    · rw [if_pos hsw] at hw
      rw [if_pos hsw, if_pos (Memarray.Fits.item_cases hsw.2), hr, if_neg (not_not.2 hs), hw]
    · rw [if_neg hsw] at hw
      rw [if_neg hsw, hw]
  · rename_i hs
    simp only [Mem.fromNetstr, hm.get, hm.size, ne_eq, hs, not_false_eq_true, if_true]

end Memarray.Has

/-! ## From one machine to another -/

/-- A machine of the other byte order. -/
def other : Host := { usual with littleEndian := false }

section Machines

variable {w w' : Host} {bs : List UInt8}

/-- An element that goes by way of the order of the network is the same everywhere. -/
theorem Host.element_net : w'.element (w'.net (w.net bs)) = w.element bs := by
  rw [w'.element_eq, w.element_eq, Host.net_net]

/-- Bytes of one machine are another number on one of the other byte order. -/
theorem Host.element_other : w'.element bs =
    if w'.littleEndian = w.littleEndian then w.element bs
    else ofLe (le bs.length (w.element bs)).reverse := by
  have hle := le_ofLe bs
  have hbe : le bs.length (ofLe bs.reverse) = bs.reverse := by
    have h := le_ofLe bs.reverse
    rwa [length_reverse] at h
  unfold Host.element
  cases w'.littleEndian <;> cases w.littleEndian <;> simp [hle, hbe]

variable {σ σ' : World} {a a' : ArrayId} {m m' : Memarray}

/-- An index is good for both arrays or for none. -/
theorem lt_of_not_le {k : UInt64} {n : UInt64} (hk : ¬ n ≤ k - 1) : (k - 1).toNat < n.toNat := by
  rw [UInt64.le_iff_toNat_le] at hk
  exact Nat.lt_of_not_le hk

/-- **Network strings are portable.**  After any runs of calls that programs have seen to on
two machines, the network string of an array gives an array of the same type and length on
the other machine the same elements, if this type has the same size there; otherwise it is
refused. -/
theorem netstr_portable {tr tr' : List (World × Op)} {p p' : Addr}
    (h : Run (World.step w) .empty tr σ) (hf : ∀ q ∈ tr, q.2.Fair w q.1)
    (h' : Run (World.step w') .empty tr' σ') (hf' : ∀ q ∈ tr', q.2.Fair w' q.1)
    (ha : σ.array a = some m) (hd : m.data = some p)
    (ha' : σ'.array a' = some m') (hd' : m'.data = some p')
    (hl : m.length ≠ 0) (hlen : m'.length = m.length) (ht : m'.type = m.type) :
    ∃ s, (σ.act w (.toNetstr a)).2 = .ok (.string s) ∧
      if m.type.size w = m.type.size w' then
        (σ'.act w' (.fromNetstr a' s)).2 = .ok .none ∧
          ∀ k, ((σ'.act w' (.fromNetstr a' s)).1.act w' (.index a' k)).2 =
            (σ.act w (.index a k)).2
      else (σ'.act w' (.fromNetstr a' s)).2 = .raised "memarray:to_netstr size mismatch" := by
  obtain ⟨bytes, hm⟩ := ((Sound.run h hf).fits a m ha).has hd
  obtain ⟨bytes', hm'⟩ := ((Sound.run h' hf').fits a' m' ha').has hd'
  have hs := length_netItems (w := w) hm.length
  have hpos : 0 < m.length.toNat := by
    rw [Nat.pos_iff_ne_zero]
    exact fun h0 ↦ hl (UInt64.toNat_inj.1 h0)
  have hfrom := hm'.fromNetstr_eq (s := w.netItems (m.type.size w) m.length.toNat bytes)
    (hlen ▸ hl)
  rw [hlen, ht, hs] at hfrom
  refine ⟨w.netItems (m.type.size w) m.length.toNat bytes, ?_, ?_⟩
  · simp only [World.act, World.on, ha]
    exact hm.toNetstr_eq hl
  split
  · rename_i hsize
    rw [if_pos (by rw [hsize])] at hfrom
    obtain ⟨h₂, hfrom, hm₂⟩ := hfrom
    simp only [World.act, World.on, ha, ha', hfrom, World.put, Function.update_self]
    refine ⟨trivial, fun k ↦ ?_⟩
    rw [hm.index_eq, hm₂.index_eq, hlen, ht]
    by_cases hk : m.length ≤ k - 1
    · rw [if_pos hk, if_pos hk]
    · have hk' := lt_of_not_le hk
      rw [if_neg hk, if_neg hk, ← hsize, item_netItems hk' hs, item_netItems hk' hm.length,
        Host.element_net]
  · rename_i hsize
    have hne : ¬ m.length.toNat * m.type.size w' = m.length.toNat * m.type.size w :=
      fun he ↦ hsize (Nat.eq_of_mul_eq_mul_left hpos he).symm
    rw [if_neg hne] at hfrom
    simp only [World.act, World.on, ha', hfrom]

theorem netstr_portable_uints : ∃ s,
    ((World.first usual).act usual (.toNetstr 0)).2 = .ok (.string s) ∧
      (((World.first other).act other (.fromNetstr 0 s)).1.act other (.index 0 1)).2 =
        ((World.first usual).act usual (.index 0 1)).2 := by
  obtain ⟨s, hs, hif⟩ := netstr_portable (World.run_first usual) (World.run_first_fair usual)
    (World.run_first other) (World.run_first_fair other) (World.first_array usual) rfl
    (World.first_array other) rfl (by decide) rfl rfl
  exact ⟨s, hs, hif.2 1⟩

/-- **Persisted arrays are not.**  The string that the `__persist` hook takes along gives an
array of the same type and length on another machine the same elements if this has the same
byte order, and otherwise each with its bytes in the opposite order. -/
theorem str_other {tr tr' : List (World × Op)} {p p' : Addr}
    (h : Run (World.step w) .empty tr σ) (hf : ∀ q ∈ tr, q.2.Fair w q.1)
    (h' : Run (World.step w') .empty tr' σ') (hf' : ∀ q ∈ tr', q.2.Fair w' q.1)
    (ha : σ.array a = some m) (hd : m.data = some p)
    (ha' : σ'.array a' = some m') (hd' : m'.data = some p')
    (hlen : m'.length = m.length) (ht : m'.type = m.type) :
    ∃ s, (σ.act w (.toStr a)).2 = .ok (.string s) ∧
      if m.length = 0 ∨ m.type.size w = m.type.size w' then
        (σ'.act w' (.fromStr a' s)).2 = .ok .array ∧
          ∀ k e, (σ.act w (.index a k)).2 = .ok (.element e) →
            ((σ'.act w' (.fromStr a' s)).1.act w' (.index a' k)).2 = .ok (.element
              (if w'.littleEndian = w.littleEndian then e
              else ofLe (le (m.type.size w) e).reverse))
      else (σ'.act w' (.fromStr a' s)).2 = .raised "memarray:to_str size mismatch" := by
  obtain ⟨bytes, hm⟩ := ((Sound.run h hf).fits a m ha).has hd
  obtain ⟨bytes', hm'⟩ := ((Sound.run h' hf').fits a' m' ha').has hd'
  have hfrom := hm'.fromStr_eq (s := bytes)
  rw [hlen, ht, hm.length] at hfrom
  refine ⟨bytes, ?_, ?_⟩
  · simp only [World.act, World.on, ha]
    exact hm.toStr_eq
  split
  · rename_i hsize
    have heq : m.length.toNat * m.type.size w' = m.length.toNat * m.type.size w := by
      rcases hsize with h0 | hsize
      · simp [h0]
      · rw [hsize]
    rw [if_pos heq] at hfrom
    obtain ⟨h₂, hfrom, hm₂⟩ := hfrom
    simp only [World.act, World.on, ha, ha', hfrom, World.put, Function.update_self]
    refine ⟨trivial, fun k e he ↦ ?_⟩
    rw [hm.index_eq] at he
    rw [hm₂.index_eq, hlen, ht]
    by_cases hk : m.length ≤ k - 1
    · rw [if_pos hk] at he
      cases he
    · have hk' := lt_of_not_le hk
      have hsize : m.type.size w = m.type.size w' :=
        Nat.eq_of_mul_eq_mul_left (Nat.lt_of_le_of_lt (Nat.zero_le _) hk') heq.symm
      rw [if_neg hk, Xfer.ok.injEq, Value.element.injEq] at he
      rw [if_neg hk, ← hsize, Host.element_other (w := w), he, length_item hk' hm.length]
  · rename_i hsize
    rw [not_or] at hsize
    have hpos : 0 < m.length.toNat := by
      rw [Nat.pos_iff_ne_zero]
      exact fun h0 ↦ hsize.1 (UInt64.toNat_inj.1 h0)
    have hne : ¬ m.length.toNat * m.type.size w' = m.length.toNat * m.type.size w :=
      fun he ↦ hsize.2 (Nat.eq_of_mul_eq_mul_left hpos he).symm
    rw [if_neg hne] at hfrom
    simp only [World.act, World.on, ha', hfrom]

theorem str_other_uints : ∃ s, ((World.first usual).act usual (.toStr 0)).2 = .ok (.string s) ∧
    (((World.first other).act other (.fromStr 0 s)).1.act other (.index 0 1)).2 =
      .ok (.element (ofLe (le 4 0).reverse)) := by
  obtain ⟨s, hs, hif⟩ := str_other (World.run_first usual) (World.run_first_fair usual)
    (World.run_first other) (World.run_first_fair other) (World.first_array usual) rfl
    (World.first_array other) rfl rfl rfl
  exact ⟨s, hs, hif.2 1 0 rfl⟩

end Machines

end Leda.Mem
