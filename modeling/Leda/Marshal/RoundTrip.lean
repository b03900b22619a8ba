import Leda.Lua.Copy
import Leda.Marshal.Written

/-!
# What was marshalled is unmarshalled

What `mar_decode` makes of what `mar_encode` wrote, for scalars, tables and Lua functions,
shared and cyclic as they may be, without hooks (`marDecode_built`): every table is copied
pair by pair, and every function is what `lua_load` made of its code, with as many
upvalues set as the receiver counts in the table that brings them (`Lua.restored`).  The
copy of a value without functions is **isomorphic to the original** (`marDecode_marEncode`).

Encoder and decoder go through the same tree, the one along its writing (`CodeOf`) and the
other along its reading (`Code.eval`), and each numbers the objects it meets.  `CopyOf`
puts the two numberings together: `b` is the copy of `a` if it was entered under the
number that the encoder gave to `a`.  `Sim` is what holds between the two at every moment,
and `Built` what has happened between two moments: objects that were open before are still
open, those that were entered since are complete, and of the older ones only the innermost
open one was written to.
-/

namespace Leda.Marshal

open Leda.Lib Leda.Lua

/-! ## Functions that are loaded -/

/-- What `lua_load` makes of the code of a function: its upvalues are `nil`, but Lua 5.2
takes a single upvalue for the environment. -/
def Lua.prototype (L : Lua) (f : Closure) : Closure :=
  { f with upvalues := f.upvalues.map fun u ↦
      (u.1, if L.lua52 && f.upvalues.length == 1 then L.globals else .nil) }

/-- A loaded function after its upvalues were set. -/
def Lua.restored (L : Lua) (f : Closure) (es : List (Value × Value)) : Closure :=
  { f with upvalues := L.filled es (L.prototype f).upvalues }

/-- The receiver runs the version of Lua that wrote the code of the function, loads it
again, and does not find more upvalues than there are. -/
structure Loadable (lua52 : Bool) (L : Lua) (f : Closure) : Prop where
  version : L.lua52 = lua52
  load : L.load f.dump = .ok (L.prototype f)
  objlen : ∀ (ρ : Nat → Nat → Prop) es, List.Forall₂ (RelPair ρ) (upvalueTable lua52 f) es →
    L.objlen es ≤ f.upvalues.length

/-- A value without hooks, whose functions can be loaded. -/
def Copyable (lua52 : Bool) (L : Lua) (h : Heap) (v : Value) : Prop :=
  ∀ a, v = .object a → ∀ b, Relation.ReflTransGen (Inside lua52 h) a b →
    match h[b]? with
    | some (.table t) => t.persist = none
    | some (.function f) => Loadable lua52 L f
    | some (.userdata u) => u.wrap = none ∧ u.persist = none
    | some .thread => True
    | none => False

/-! ## Two numberings -/

/-- `b` is the copy of `a`: it was entered under the number of `a`. -/
def CopyOf (st : Enc) (d : Dec) (a b : Nat) : Prop :=
  ∃ n, st.seen.lookup a = some (n + 1) ∧ d.seen[n]? = some (.object b)

/-- `b` is a table with the pairs of the table `a`, in the same order, or the function `a`
with upvalues from a copy of its table of upvalues. -/
def Complete (L : Lua) (ρ : Nat → Nat → Prop) (h h' : Heap) (a b : Nat) : Prop :=
  match h[a]? with
  | some (.table t) => ∃ t' : Table, h'[b]? = some (.table t') ∧
      List.Forall₂ (RelPair ρ) t.entries t'.entries
  | some (.function f) => ∃ es, h'[b]? = some (.function (L.restored f es)) ∧
      List.Forall₂ (RelPair ρ) (upvalueTable L.lua52 f) es
  | _ => False

/-- What holds between the encoder of the heap `h` and the decoder, at the same place. -/
structure Sim (h : Heap) (st : Enc) (d : Dec) : Prop where
  heap : st.heap = h
  /-- Both have the same next number. -/
  idx : st.idx = d.seen.length + 1
  /-- What has a number has a copy. -/
  copied : ∀ a n, st.seen.lookup a = some n → ∃ b, CopyOf st d a b
  lt : ∀ a b, CopyOf st d a b → b < d.heap.length
  injective : ∀ a a' b, CopyOf st d a b → CopyOf st d a' b → a = a'

/-- What has happened from `st` and `d` to `st'` and `d'`, where `w` are the old objects
that could be written to. -/
structure Built (L : Lua) (h : Heap) (w : Nat → Prop) (st : Enc) (d : Dec) (st' : Enc) (d' : Dec) :
    Prop where
  sim : Sim h st' d'
  lookup : ∀ a n, st.seen.lookup a = some n → st'.seen.lookup a = some n
  seen : d.seen <+: d'.seen
  length : d.heap.length ≤ d'.heap.length
  frame : ∀ b, b < d.heap.length → ¬ w b → d'.heap[b]? = d.heap[b]?
  /-- What was entered since is new, and complete. -/
  done : ∀ a b, CopyOf st' d' a b → st.seen.lookup a = none →
    d.heap.length ≤ b ∧ Complete L (CopyOf st' d') h d'.heap a b

section

variable {h : Heap} {w w' : Nat → Prop} {st st₁ st' : Enc} {d d₁ d' : Dec} {a b b' n : Nat}
  {hooks : Hooks} {lua52 nowrap : Bool} {L : Lua} {v v' : Value} {k : Value} {o : Object}

theorem CopyOf.functional (hab : CopyOf st d a b) (hab' : CopyOf st d a b') : b = b' := by
  obtain ⟨n, hn, hb⟩ := hab
  obtain ⟨n', hn', hb'⟩ := hab'
  obtain rfl : n = n' := by simpa using hn.symm.trans hn'
  simpa using hb.symm.trans hb'

theorem CopyOf.lookup_ne_none (hab : CopyOf st d a b) : st.seen.lookup a ≠ none := by
  obtain ⟨n, hn, -⟩ := hab
  simp [hn]

theorem Complete.mono {ρ ρ' : Nat → Nat → Prop} {h' h'' : Heap} (hc : Complete L ρ h h' a b)
    (hρ : ∀ a b, ρ a b → ρ' a b) (hb : h''[b]? = h'[b]?) : Complete L ρ' h h'' a b := by
  unfold Complete at hc ⊢
  split at hc
  · obtain ⟨t', ht', hf⟩ := hc
    exact ⟨t', hb.trans ht', hf.imp fun e e' he ↦ he.mono hρ⟩
  · obtain ⟨es, hes, hf⟩ := hc
    exact ⟨es, hb.trans hes, hf.imp fun e e' he ↦ he.mono hρ⟩
  · exact hc

namespace Built

theorem copyOf (hb : Built L h w st d st' d') (hab : CopyOf st d a b) : CopyOf st' d' a b := by
  obtain ⟨n, hn, hd⟩ := hab
  obtain ⟨new, hnew⟩ := hb.seen
  have hlt : n < d.seen.length := (List.getElem?_eq_some_iff.1 hd).1
  refine ⟨n, hb.lookup a _ hn, ?_⟩
  rw [← hnew, List.getElem?_append_left hlt, hd]

theorem refl (hs : Sim h st d) : Built L h w st d st d where
  sim := hs
  lookup _ _ := id
  seen := List.prefix_refl _
  length := Nat.le_refl _
  frame _ _ _ := rfl
  done _ _ hab hn := absurd hn hab.lookup_ne_none

/-- One part after another.  The second writes to no old object that is not allowed, and to
no copy that the first has completed. -/
theorem comp (hb : Built L h w st d st₁ d₁) (hb' : Built L h w' st₁ d₁ st' d')
    (hold : ∀ b, w' b → b < d.heap.length → w b)
    (hdone : ∀ a b, CopyOf st₁ d₁ a b → st.seen.lookup a = none → ¬ w' b) :
    Built L h w st d st' d' where
  sim := hb'.sim
  lookup a n hn := hb'.lookup a n (hb.lookup a n hn)
  seen := hb.seen.trans hb'.seen
  length := hb.length.trans hb'.length
  frame b hlt hn := (hb'.frame b (Nat.lt_of_lt_of_le hlt hb.length) fun hw ↦
    hn (hold b hw hlt)).trans (hb.frame b hlt hn)
  done a b hab hn := by
    cases hl : st₁.seen.lookup a with
    | none =>
        obtain ⟨hle, hc⟩ := hb'.done a b hab hl
        exact ⟨hb.length.trans hle, hc⟩
    | some n =>
        obtain ⟨b', hab'⟩ := hb.sim.copied a n hl
        obtain rfl := (hb'.copyOf hab').functional hab
        obtain ⟨hle, hc⟩ := hb.done a b' hab' hn
        exact ⟨hle, hc.mono (fun _ _ ↦ hb'.copyOf)
          (hb'.frame b' (hb.sim.lt a b' hab') (hdone a b' hab' hn))⟩

/-- What may be written to is older than both parts. -/
theorem trans (hb : Built L h w st d st₁ d₁) (hb' : Built L h w st₁ d₁ st' d')
    (hw : ∀ b, w b → b < d.heap.length) : Built L h w st d st' d' :=
  hb.comp hb' (fun _ hwb _ ↦ hwb) fun a b hab hn hwb ↦
    absurd (hb.done a b hab hn).1 (Nat.not_le.2 (hw b hwb))

/-- What writes to nothing old does not write to what is allowed either. -/
theorem weaken (hb : Built L h w st d st' d') (hw : ∀ b, w b → w' b) : Built L h w' st d st' d' :=
  { hb with frame := fun b hlt hn ↦ hb.frame b hlt fun hwb ↦ hn (hw b hwb) }

end Built

/-! ## The steps -/

/-- A pair is added to an open table. -/
theorem Sim.set (hs : Sim h st d) (o : Object) :
    Built L h (· = a) st d st { d with heap := d.heap.set a o } where
  sim := {
    heap := hs.heap
    idx := hs.idx
    copied := hs.copied
    lt := fun b c hbc ↦ by simpa using hs.lt b c hbc
    injective := hs.injective }
  lookup _ _ := id
  seen := List.prefix_refl _
  length := by simp
  frame b _ hne := List.getElem?_set_ne (Ne.symm hne)
  done _ _ hab hn := absurd hn hab.lookup_ne_none

/-- An object is made. -/
def Dec.alloc (d : Dec) (o : Object) : Dec := { d with heap := d.heap ++ [o] }

/-- An object is made that is not entered. -/
theorem Sim.alloc (hs : Sim h st d) (o : Object) : Built L h w st d st (d.alloc o) where
  sim := {
    heap := hs.heap
    idx := hs.idx
    copied := hs.copied
    lt := fun b c hbc ↦ by
      have := hs.lt b c hbc
      simp only [Dec.alloc, List.length_append, List.length_singleton]
      omega
    injective := hs.injective }
  lookup _ _ := id
  seen := List.prefix_refl _
  length := by simp [Dec.alloc]
  frame b hlt _ := List.getElem?_append_left hlt
  done _ _ hab hn := absurd hn hab.lookup_ne_none

/-- The copy of an object is entered: it gets the number that the encoder gives. -/
theorem Sim.copyOf_enter (hs : Sim h st d) :
    CopyOf (st.record a) ((d.alloc o).enter (.object d.heap.length)) a b ↔
      b = d.heap.length := by
  have hidx := hs.idx
  constructor
  · rintro ⟨n, hn, hb⟩
    obtain rfl : d.seen.length = n := by
      simp only [Enc.record, List.lookup_cons, beq_self_eq_true, Option.some.injEq] at hn
      omega
    simpa [Dec.enter, Dec.alloc] using hb.symm
  · rintro rfl
    refine ⟨d.seen.length, ?_, ?_⟩
    · simp [Enc.record, hidx]
    · simp [Dec.enter, Dec.alloc]

/-- The other copies stay. -/
theorem Sim.copyOf_enter_of_ne (hs : Sim h st d) (hne : b ≠ a) :
    CopyOf (st.record a) ((d.alloc o).enter (.object d.heap.length)) b b' ↔ CopyOf st d b b' := by
  have hl : (st.record a).seen.lookup b = st.seen.lookup b := by
    simp [Enc.record, List.lookup_cons, beq_eq_false_iff_ne.2 hne]
  constructor
  · rintro ⟨n, hn, hb⟩
    rw [hl] at hn
    obtain ⟨c, m, hm, hc⟩ := hs.copied b _ hn
    obtain rfl : n = m := by simpa using hn.symm.trans hm
    have hlt : n < d.seen.length := (List.getElem?_eq_some_iff.1 hc).1
    refine ⟨n, hn, ?_⟩
    rwa [Dec.enter, Dec.alloc, List.getElem?_append_left hlt] at hb
  · rintro ⟨n, hn, hb⟩
    have hlt : n < d.seen.length := (List.getElem?_eq_some_iff.1 hb).1
    refine ⟨n, hl.trans hn, ?_⟩
    rwa [Dec.enter, Dec.alloc, List.getElem?_append_left hlt]

/-- An object is entered on both sides. -/
theorem Sim.enter (hs : Sim h st d) :
    Sim h (st.record a) ((d.alloc o).enter (.object d.heap.length)) where
  heap := hs.heap
  idx := by simp [Enc.record, Dec.enter, Dec.alloc, hs.idx]
  copied b n hn := by
    by_cases hba : b = a
    · subst hba
      exact ⟨_, hs.copyOf_enter.2 rfl⟩
    · simp only [Enc.record, List.lookup_cons, beq_eq_false_iff_ne.2 hba] at hn
      obtain ⟨c, hc⟩ := hs.copied b n hn
      exact ⟨c, (hs.copyOf_enter_of_ne hba).2 hc⟩
  lt b c hbc := by
    have hlen : ((d.alloc o).enter (.object d.heap.length)).heap.length = d.heap.length + 1 := by
      simp [Dec.enter, Dec.alloc]
    rw [hlen]
    by_cases hba : b = a
    · subst hba
      have := hs.copyOf_enter.1 hbc
      omega
    · have := hs.lt b c ((hs.copyOf_enter_of_ne hba).1 hbc)
      omega
  injective b b' c hbc hbc' := by
    by_cases hba : b = a
    · subst hba
      obtain rfl := hs.copyOf_enter.1 hbc
      by_contra hne
      have := hs.lt b' _ ((hs.copyOf_enter_of_ne (Ne.symm hne)).1 hbc')
      omega
    · by_cases hba' : b' = a
      · subst hba'
        obtain rfl := hs.copyOf_enter.1 hbc'
        have := hs.lt b _ ((hs.copyOf_enter_of_ne hba).1 hbc)
        omega
      · exact hs.injective b b' c ((hs.copyOf_enter_of_ne hba).1 hbc)
          ((hs.copyOf_enter_of_ne hba').1 hbc')

/-- An object whose copy is complete is closed. -/
theorem Built.close (hs : Sim h st d) (hl : st.seen.lookup a = none)
    (hb : Built L h (· = d.heap.length) (st.record a)
      ((d.alloc o).enter (.object d.heap.length)) st' d')
    (hc : Complete L (CopyOf st' d') h d'.heap a d.heap.length) : Built L h w st d st' d' := by
  have hlen : ((d.alloc o).enter (.object d.heap.length)).heap.length = d.heap.length + 1 := by
    simp [Dec.enter, Dec.alloc]
  refine ⟨hb.sim, fun b n hn ↦ hb.lookup b n ?_, ?_, ?_, fun b hlt _ ↦ ?_, fun b c hbc hn ↦ ?_⟩
  · have hba : b ≠ a := by
      rintro rfl
      simp [hl] at hn
    simpa [Enc.record, List.lookup_cons, beq_eq_false_iff_ne.2 hba] using hn
  · exact (List.prefix_append d.seen _).trans hb.seen
  · have := hb.length
    omega
  · rw [hb.frame b (by omega) (by omega)]
    exact List.getElem?_append_left hlt
  · by_cases hba : b = a
    · subst hba
      obtain rfl := (hb.copyOf (hs.copyOf_enter.2 rfl)).functional hbc
      exact ⟨Nat.le_refl _, hc⟩
    · obtain ⟨hle, hcb⟩ := hb.done b c hbc (by
        simpa [Enc.record, List.lookup_cons, beq_eq_false_iff_ne.2 hba] using hn)
      exact ⟨by omega, hcb⟩

/-- A reference leads to the copy. -/
theorem Sim.get (hs : Sim h st d) (hl : st.seen.lookup a = some n) (hi : st.idx ≤ 2 ^ 31) :
    ∃ b, d.get (BitVec.ofNat 32 n) = .object b ∧ CopyOf st d a b := by
  obtain ⟨b, m, hm, hb⟩ := hs.copied a n hl
  obtain rfl : n = m + 1 := by simpa using hl.symm.trans hm
  have hlt : m < d.seen.length := (List.getElem?_eq_some_iff.1 hb).1
  have hidx := hs.idx
  have hnat : (BitVec.ofNat 32 (m + 1)).toNat = m + 1 := by
    rw [BitVec.toNat_ofNat]
    omega
  have hpos : 0 < (BitVec.ofNat 32 (m + 1)).toInt := by
    rw [BitVec.toInt_eq_toNat_cond, hnat]
    omega
  refine ⟨b, ?_, m, hm, hb⟩
  rw [Dec.get, if_pos hpos, hnat, Nat.add_sub_cancel, hb]
  rfl

/-! ## Both ways through the tree -/

theorem Copyable.of_inside (hp : Copyable lua52 L h (.object a))
    (hv : ∀ b, v = .object b → Inside lua52 h a b) : Copyable lua52 L h v :=
  fun b hb c hc ↦ hp a rfl c (.head (hv b hb) hc)

/-- The keys and values of a table. -/
theorem Copyable.entry (hh : WellFormedHeap h) (hp : Copyable lua52 L h (.object a)) {t : Table}
    (ht : h[a]? = some (.table t)) {e : Value × Value} (he : e ∈ t.entries) :
    Copyable lua52 L h e.1 ∧ Copyable lua52 L h e.2 := by
  have hn : t.persist = none := by
    have := hp a rfl a .refl
    rwa [ht] at this
  exact ⟨hp.of_inside fun b hb ↦ hh.inside_entry ht hn he (.inl hb),
    hp.of_inside fun b hb ↦ hh.inside_entry ht hn he (.inr hb)⟩

/-- What travels for an upvalue. -/
def carried (lua52 : Bool) (u : String × Value) : Value :=
  if isEnv lua52 u then envMarker else u.2

theorem upvalueTable_eq (f : Closure) :
    upvalueTable lua52 f = arrayEntries (f.upvalues.map (carried lua52)) :=
  rfl

theorem carried_of_followed {u : String × Value} (hu : isEnv lua52 u = false) :
    carried lua52 u = u.2 := by
  simp [carried, hu]

/-- The upvalues of a function, as they travel. -/
theorem Copyable.upvalue (hh : WellFormedHeap h) (hp : Copyable lua52 L h (.object a))
    {f : Closure} (hf : h[a]? = some (.function f)) {e : Value × Value}
    (he : e ∈ upvalueTable lua52 f) : Copyable lua52 L h e.1 ∧ Copyable lua52 L h e.2 := by
  obtain ⟨i, v, hi, -, rfl⟩ := mem_arrayEntries_iff.1 he
  obtain ⟨u, hu, rfl⟩ := List.mem_map.1 (List.mem_of_getElem? hi)
  refine ⟨fun b hb ↦ ?_, hp.of_inside fun b hb ↦ ?_⟩
  · rw [ofNat_eq] at hb
    cases hb
  · have hcarried : carried lua52 u = .object b := hb
    cases henv : isEnv lua52 u with
    | true =>
        rw [carried, henv, if_pos rfl] at hcarried
        cases hcarried
    | false =>
        rw [carried_of_followed henv] at hcarried
        exact hh.inside_upvalue hf hu henv hcarried

theorem wellFormed_upvalueTable (hh : WellFormedHeap h) {f : Closure}
    (hf : h[a]? = some (.function f)) : WellFormed (upvalueTable lua52 f) := by
  have hlt := hh.functions a f hf
  exact wellFormed_arrayEntries (by rw [List.length_map]; omega)

/-- The upvalues of a loaded function are set. -/
theorem setUpvalues_loaded {f : Closure} {es : List (Value × Value)} {h' : Heap}
    (hb : h'[b]? = some (.function (L.prototype f))) (hl : L.objlen es ≤ f.upvalues.length) :
    L.setUpvalues (.object b) es h' = .ok (h'.set b (.function (L.restored f es))) := by
  have hlen : (L.prototype f).upvalues.length = f.upvalues.length := by
    simp [Lua.prototype]
  simp only [Lua.setUpvalues, hb, hlen, if_neg (Nat.not_lt.2 hl)]
  rfl

/-- The next pair goes to the end of the copy. -/
theorem settable_append {ρ : Nat → Nat → Prop} {es : List (Value × Value)} {t' : Table}
    {rest : List (Value × Value)} (hinj : ∀ a a' b, ρ a b → ρ a' b → a = a')
    (hw : WellFormed (es ++ (k, v) :: rest)) (hf : List.Forall₂ (RelPair ρ) es t'.entries)
    {k' v' : Value} (hk : RelValue ρ k k') (hv : RelValue ρ v v') {h' : Heap}
    (hb : h'[b]? = some (.table t')) :
    settable h' b k' v' =
      .ok (h'.set b (.table { t' with entries := t'.entries ++ [(k', v')] })) := by
  have hkey : isKey k' = true := by
    rw [hk.isKey_eq]
    exact hw.keys (k, v) (by simp)
  have hval : v' ≠ .nil := fun hn ↦ hw.values (k, v) (by simp) (hv.eq_nil_iff.1 hn)
  have hmem : ∀ e' ∈ t'.entries, ∃ e ∈ es, RelPair ρ e e' := fun e' he' ↦ by
    obtain ⟨i, hi, rfl⟩ := List.getElem_of_mem he'
    have hi' : i < es.length := hf.length_eq ▸ hi
    exact ⟨es[i], List.getElem_mem hi', hf.get hi' hi⟩
  have hne : ∀ e' ∈ t'.entries, rawEq e'.1 k' = false := fun e' he' ↦ by
    obtain ⟨e, he, hee⟩ := hmem e' he'
    exact hee.1.rawEq_eq_false hinj hk ((List.pairwise_append.1 hw.distinct).2.2 e he (k, v)
      (by simp))
  have hnil : ∀ e' ∈ t'.entries, e'.2 ≠ .nil := fun e' he' hn ↦ by
    obtain ⟨e, he, hee⟩ := hmem e' he'
    exact hw.values e (List.mem_append_left _ he) (hee.2.eq_nil_iff.1 hn)
  rw [settable, hb]
  simp only [hkey, if_pos, rawset_append hne hnil hval]

mutual

/-- **A value is copied.** -/
theorem CodeOf.sim {v : Value} {st : Enc} {c : Code} {st' : Enc} {d : Dec}
    (hh : WellFormedHeap h) :
    CodeOf hooks lua52 nowrap v st c st' → Copyable lua52 L h v → Sim h st d →
      st'.idx ≤ 2 ^ 31 →
      ∃ v' d', c.eval L d = .ok (v', d') ∧ Built L h (fun _ ↦ False) st d st' d' ∧
        RelValue (CopyOf st' d') v v'
  | .nil, _, hs, _ => ⟨_, d, rfl, .refl hs, rfl⟩
  | .boolean (b := b), _, hs, _ => by
      refine ⟨_, d, rfl, .refl hs, ?_⟩
      cases b <;> simp [RelValue]
  | .lightuserdata _, _, hs, _ => ⟨_, d, rfl, .refl hs, rfl⟩
  | .number, _, hs, _ => ⟨_, d, rfl, .refl hs, rfl⟩
  | .string, _, hs, _ => ⟨_, d, rfl, .refl hs, rfl⟩
  | .dangling (a := a) ho, hp, hs, _ => by
      have hsome := hp a rfl a .refl
      rw [hs.heap] at ho
      rw [ho] at hsome
      exact hsome.elim
  | .ref ho hk hl, _, hs, hi => by
      obtain ⟨b, hget, hb⟩ := hs.get hl hi
      exact ⟨.object b, d, by rw [Code.eval, hget], .refl hs, b, rfl, hb⟩
  | .table (a := a) (t := t) ho hl _ hes, hp, hs, hi => by
      rw [hs.heap] at ho
      have henter := hs.enter (a := a) (o := .table {})
      have hnew : ((d.alloc (.table {})).enter (.object d.heap.length)).heap[d.heap.length]? =
          some (.table {}) := by
        simp [Dec.enter, Dec.alloc]
      obtain ⟨d', hd', hb, t', ht', hf⟩ := hes.sim hh [] (a := d.heap.length) henter hnew .nil
        (hh.tables a t ho) (fun e he ↦ hp.entry hh ho he) hi
      have hcopy := hb.copyOf (hs.copyOf_enter.2 rfl)
      refine ⟨.object d.heap.length, d', ?_, .close hs hl hb ?_, d.heap.length, rfl, hcopy⟩
      · rw [Code.eval]
        exact Xfer.bind_eq_ok.2 ⟨d', hd', rfl⟩
      unfold Complete
      rw [ho]
      exact ⟨t', ht', hf⟩
  | .function (a := a) (f := f) ho hl _ hes, hp, hs, hi => by
      rw [hs.heap] at ho
      have hload : Loadable lua52 L f := by
        have := hp a rfl a .refl
        rwa [ho] at this
      -- the function is loaded and entered, its table of upvalues is made but not entered
      obtain ⟨d₁, hd₁⟩ : ∃ d₁, d₁ = (d.alloc (.function (L.prototype f))).enter
        (.object d.heap.length) := ⟨_, rfl⟩
      have hlen₁ : d₁.heap.length = d.heap.length + 1 := by simp [hd₁, Dec.enter, Dec.alloc]
      have henter : Sim h (st.record a) d₁ := hd₁ ▸ hs.enter
      have halloc := henter.alloc (L := L) (w := (· = d.heap.length)) (.table {})
      have hnew : (d₁.alloc (.table {})).heap[d₁.heap.length]? = some (.table {}) := by
        simp [Dec.alloc]
      obtain ⟨d', hd', hb, t', ht', hf⟩ := hes.sim hh [] (a := d₁.heap.length) halloc.sim hnew .nil
        (wellFormed_upvalueTable hh ho) (fun e he ↦ hp.upvalue hh ho he) hi
      rw [List.nil_append] at hf
      have hb₁ : Built L h (· = d.heap.length) (st.record a) d₁ st' d' :=
        halloc.comp hb (fun b hbT hlt ↦ by omega) fun x b hab hn ↦ absurd hn hab.lookup_ne_none
      -- the upvalues are set in the function, which is older than the table
      have hfun : d'.heap[d.heap.length]? = some (.function (L.prototype f)) := by
        rw [hb.frame _ (by simp only [Dec.alloc, List.length_append]; omega) (by omega)]
        simp [hd₁, Dec.enter, Dec.alloc]
      have hset := setUpvalues_loaded hfun (hload.objlen _ _ hf)
      have hb₂ := hb₁.trans (hb₁.sim.set (.function (L.restored f t'.entries))) fun b hbF ↦ by
        omega
      have hcopy := hb₂.copyOf (hd₁ ▸ hs.copyOf_enter.2 rfl)
      refine ⟨.object d.heap.length, _, ?_, .close hs hl (hd₁ ▸ hb₂) ?_, d.heap.length, rfl, hcopy⟩
      · have hloaded : L.loadFunction f.dump d = (.object d.heap.length, d₁) := by
          rw [Lua.loadFunction, hload.load, hd₁]
          rfl
        have hnew : d₁.newtable = d₁.alloc (.table {}) := rfl
        simp only [Code.eval, hloaded, hnew, hd', Xfer.ok_bind, entriesOf, ht', hset]
      · unfold Complete
        rw [ho]
        have hlt : d.heap.length < d'.heap.length := (List.getElem?_eq_some_iff.1 hfun).1
        exact ⟨t'.entries, List.getElem?_set_self hlt, hload.version ▸ hf⟩
  | .persist (a := a) ho _ hf _ _, hp, hs, _ => by
      have hn := hp a rfl a .refl
      rw [hs.heap] at ho
      rw [ho] at hn
      simp [hn] at hf
  | .wrap (a := a) ho _ hu _ _, hp, hs, _ => by
      have hn := hp a rfl a .refl
      rw [hs.heap] at ho
      rw [ho] at hn
      simp [hn.1, hn.2] at hu

/-- **The pairs of a table are copied** into the table at `a`, which holds the copies of the
pairs before them. -/
theorem CodesOf.sim {entries : List (Value × Value)} {st : Enc} {es : Codes} {st' : Enc}
    {d : Dec} {a : Nat} {t : Table} (hh : WellFormedHeap h) :
    CodesOf hooks lua52 nowrap entries st es st' → ∀ pre : List (Value × Value), Sim h st d →
      d.heap[a]? = some (.table t) → List.Forall₂ (RelPair (CopyOf st d)) pre t.entries →
      WellFormed (pre ++ entries) →
      (∀ e ∈ entries, Copyable lua52 L h e.1 ∧ Copyable lua52 L h e.2) → st'.idx ≤ 2 ^ 31 →
      ∃ d', es.eval L a d = .ok d' ∧ Built L h (· = a) st d st' d' ∧
        ∃ t' : Table, d'.heap[a]? = some (.table t') ∧
          List.Forall₂ (RelPair (CopyOf st' d')) (pre ++ entries) t'.entries
  | .nil, pre, hs, ht, hf, _, _, _ => ⟨d, rfl, .refl hs, t, ht, by simpa using hf⟩
  | .cons (k := k) (v := v) hk hv hrest, pre, hs, ht, hf, hw, hp, hi => by
      obtain ⟨hpk, hpv⟩ := hp (k, v) (by simp)
      have hi₂ := hrest.idx_bound.1
      have hi₁ := hv.idx_bound.1
      obtain ⟨k', d₁, hk', hb₁, hrk⟩ := hk.sim hh hpk hs (by omega)
      obtain ⟨v', d₂, hv', hb₂, hrv⟩ := hv.sim hh hpv hb₁.sim (by omega)
      have hb := hb₁.trans hb₂ fun _ ↦ False.elim
      have halt : a < d.heap.length := (List.getElem?_eq_some_iff.1 ht).1
      have ht₂ : d₂.heap[a]? = some (.table t) := (hb.frame a halt id).trans ht
      have hf₂ := hf.imp fun e e' he ↦ he.mono fun _ _ ↦ hb.copyOf
      have hrk₂ := hrk.mono fun _ _ ↦ hb₂.copyOf
      have hset := settable_append hb₂.sim.injective hw hf₂ hrk₂ hrv ht₂
      have halt₂ : a < d₂.heap.length := (List.getElem?_eq_some_iff.1 ht₂).1
      have hb₃ := hb₂.sim.set (L := L) (a := a)
        (.table { t with entries := t.entries ++ [(k', v')] })
      obtain ⟨d', hd', hb', t', ht', hf'⟩ := hrest.sim hh (pre ++ [(k, v)]) hb₃.sim
        (List.getElem?_set_self halt₂)
        (List.rel_append hf₂ (.cons ⟨hrk₂, hrv⟩ .nil))
        (by simpa using hw) (fun e he ↦ hp e (List.mem_cons_of_mem _ he)) hi
      refine ⟨d', ?_, ?_, t', ht', by simpa using hf'⟩
      · simp only [Codes.eval, hk', hv', hset, hd', Xfer.ok_bind]
      · have hba : Built L h (· = a) _ d _ _ :=
          (hb.weaken fun _ ↦ False.elim).trans hb₃ fun _ hab ↦ hab ▸ halt
        exact hba.trans hb' fun _ hab ↦ hab ▸ halt

end

/-! ## A whole value -/

theorem Sim.start (h h' : Heap) : Sim h { heap := h } { heap := h' } where
  heap := rfl
  idx := rfl
  copied _ _ hn := by cases hn
  lt := by
    rintro _ _ ⟨n, hn, -⟩
    cases hn
  injective := by
    rintro _ _ _ ⟨n, hn, -⟩
    cases hn

theorem copyable_of_plain (hp : Plain lua52 h v) : Copyable lua52 L h v := by
  intro a ha b hb
  obtain ⟨t, ht, hn⟩ := hp a ha b hb
  rw [ht]
  exact hn

/-- The copies of what a plain value consists of are copies. -/
theorem Built.isCopy {h' : Heap} (hh : WellFormedHeap h) (hp : Plain lua52 h v)
    (hb : Built L h w { heap := h } { heap := h' } st' d') :
    IsCopy (fun a b ↦ CopyOf st' d' a b ∧ Below lua52 h v a) h d'.heap where
  functional _ _ _ hab hab' := hab.1.functional hab'.1
  injective _ _ _ hab hab' := hb.sim.injective _ _ _ hab.1 hab'.1
  tables a b hab := by
    obtain ⟨hab, r, hr, hra⟩ := hab
    obtain ⟨t, ht, hn⟩ := hp r hr a hra
    have hc := (hb.done a b hab rfl).2
    unfold Complete at hc
    rw [ht] at hc
    obtain ⟨t', ht', hf⟩ := hc
    have hin : ∀ e ∈ t.entries, ∀ c, e.1 = .object c ∨ e.2 = .object c → Below lua52 h v c :=
      fun e he c hc ↦ ⟨r, hr, hra.tail (hh.inside_entry ht hn he hc)⟩
    refine ⟨t, t', ht, ht', t'.entries, .refl _, ?_⟩
    refine ((List.forall₂_and_left _ _).2 ⟨hin, hf⟩).imp fun e e' ⟨hbelow, hee⟩ ↦ ?_
    exact ⟨hee.1.restrict fun c hc ↦ hbelow c (.inl hc),
      hee.2.restrict fun c hc ↦ hbelow c (.inr hc)⟩

/-- **What was marshalled is unmarshalled.** -/
theorem marDecode_built {depth depth' : Nat} {bs : List UInt8} {h₁ : Heap} (h' : Heap)
    (hh : WellFormedHeap h) (hp : Copyable lua52 L h v) (hd : depth ≤ depth')
    (he : marEncode hooks lua52 nowrap depth v h = .ok (bs, h₁)) :
    h₁ = h ∧ ∃ v' st' d', marDecode L depth' bs h' = .ok (v', d'.heap) ∧
      Built L h (fun _ ↦ False) { heap := h } { heap := h' } st' d' ∧
      RelValue (CopyOf st' d') v v' := by
  obtain ⟨c, st', hc, hf, hheight, rfl, rfl⟩ := marEncode_eq_ok_iff.1 he
  obtain ⟨v', d', hd', hb, hr⟩ := hc.sim (L := L) hh hp (.start h h') (hc.idx_lt hf rfl)
  have hread := decodeValue_print (L := L) c depth' [] { heap := h' } hf (hheight.trans hd)
  rw [List.append_nil, hd', Xfer.ok_bind] at hread
  refine ⟨hb.sim.heap, v', st', d', ?_, hb, hr⟩
  rw [marDecode, if_neg (by simp), hread, Xfer.ok_bind]

/-- **A value without functions is copied**: the copy is isomorphic to the original, and
what the receiver had before is not touched. -/
theorem marDecode_marEncode {depth depth' : Nat} {bs : List UInt8} {h₁ : Heap} (h' : Heap)
    (hh : WellFormedHeap h) (hp : Plain lua52 h v) (hd : depth ≤ depth')
    (he : marEncode hooks lua52 nowrap depth v h = .ok (bs, h₁)) :
    h₁ = h ∧ ∃ v' h'', marDecode L depth' bs h' = .ok (v', h'') ∧ Iso h v h'' v' ∧
      h'.length ≤ h''.length ∧ ∀ b, b < h'.length → h''[b]? = h'[b]? := by
  obtain ⟨hh₁, v', st', d', hdec, hb, hr⟩ :=
    marDecode_built (L := L) h' hh (copyable_of_plain hp) hd he
  have hr' := hr.restrict (p := Below lua52 h v) fun a ha ↦ ⟨a, ha, .refl⟩
  exact ⟨hh₁, v', d'.heap, hdec, ⟨_, hb.isCopy hh hp, hr'⟩, hb.length,
    fun b hlt ↦ hb.frame b hlt id⟩

end

end Leda.Marshal
