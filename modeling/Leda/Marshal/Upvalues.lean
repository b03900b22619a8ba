import Leda.Lua.Border
import Leda.Marshal.RoundTrip

/-!
# Upvalues on the way

The upvalues of a function travel in a table, each at its position, and the receiver sets
as many as the length operator counts in that table.  A `nil` leaves no pair in the table,
so that with a `nil` before another upvalue the table has several borders: whether the
other upvalue is set is up to the operator, and one that counts from the start does not
find it.  Lua 5.2 adds two cases: a string that reads as the marker of the environment is
taken for it, and `lua_load` puts the globals into the only upvalue of a function, where
they stay if the upvalue is `nil`.

`Survives` excludes these cases, and `upvalues_arrive_iff` is the main result: **the
upvalues of a function arrive, whatever border the operator returns, if and only if this
function and every function inside its upvalues survives**.

That the condition is enough is read off the copies (`relUpvalue_restored`).  That it is
needed takes a detour.  What an operator that returns the least border has restored always
survives (`survives_of_restored`), and so must the original of which it is to be a copy.
The copy meant here is the one of an arbitrary isomorphism, which need not be the one that
was made; but whatever is found in the copy at some depth was made from something at this
depth (`exists_copy_at`).
-/

namespace Leda.Marshal

open Leda.Lib Leda.Lua

/-- **A function whose upvalues survive**, the environment apart. -/
structure Survives (lua52 : Bool) (f : Closure) : Prop where
  /-- No `nil` comes before another upvalue. -/
  gapless : ∀ (i j : Nat) u w, i < j → f.upvalues[i]? = some u → f.upvalues[j]? = some w →
    isEnv lua52 u = false → isEnv lua52 w = false → u.2 = .nil → w.2 = .nil
  /-- None is the marker. -/
  marker : lua52 = true → ∀ u ∈ f.upvalues, isEnv lua52 u = false → readsAsMarker u.2 = false
  /-- The only one is not `nil`. -/
  single : lua52 = true → ∀ u, f.upvalues = [u] → isEnv lua52 u = false → u.2 ≠ .nil

/-- A function that has, at every position but that of the environment, an upvalue that is
isomorphic to the original one. -/
def Arrived (lua52 : Bool) (h : Heap) (f : Closure) (h' : Heap) (v' : Value) : Prop :=
  ∃ (b : Nat) (f' : Closure), v' = .object b ∧ h'[b]? = some (.function f') ∧
    f'.upvalues.length = f.upvalues.length ∧
      ∀ (i : Nat) u, f.upvalues[i]? = some u → isEnv lua52 u = false →
        ∃ u', f'.upvalues[i]? = some u' ∧ FullIso lua52 h u.2 h' u'.2

section

variable {h h' : Heap} {hooks : Hooks} {lua52 nowrap : Bool} {L : Lua} {f g : Closure}
  {es : List (Value × Value)} {ρ κ : Nat → Nat → Prop} {u : String × Value} {v : Value}
  {a b i n r : Nat}

/-! ## What is restored -/

/-- The upvalue at a position, after the upvalues were set. -/
def Lua.arrives (L : Lua) (f : Closure) (es : List (Value × Value)) (i : Nat) : Value :=
  if i + 1 ≤ L.objlen es then L.upvalue (rawget es (.ofNat (i + 1)))
  else if L.lua52 && f.upvalues.length == 1 then L.globals else .nil

theorem getElem?_restored : (L.restored f es).upvalues[i]? =
    (f.upvalues[i]?).map fun u ↦ (u.1, L.arrives f es i) := by
  simp only [Lua.restored, Lua.filled, Lua.prototype, List.getElem?_map, List.getElem?_zipIdx,
    Option.map_map]
  congr 1
  funext u
  simp only [Function.comp, Lua.arrives, Nat.add_comm 1 i]
  split <;> rfl

theorem length_restored : (L.restored f es).upvalues.length = f.upvalues.length := by
  simp [Lua.restored, Lua.filled, Lua.prototype]

theorem upvalue_of_not_marker (hm : L.lua52 = true → readsAsMarker v = false) :
    L.upvalue v = v := by
  rw [Lua.upvalue, if_neg]
  rw [Bool.and_eq_true]
  rintro ⟨h52, hs⟩
  rw [hm h52] at hs
  cases hs

/-- The table of upvalues is small. -/
theorem length_upvalueTable (hu : f.upvalues.length < 256)
    (hes : List.Forall₂ (RelPair ρ) (upvalueTable lua52 f) es) : es.length < 256 := by
  rw [← hes.length_eq, upvalueTable_eq]
  have hle : (arrayEntries (f.upvalues.map (carried lua52))).length ≤ _ := length_arrayEntries
  rw [List.length_map] at hle
  omega

/-- What the receiver finds at a position. -/
theorem rawget_upvalue (hu : f.upvalues.length < 256) (hi : f.upvalues[i]? = some u)
    (hes : List.Forall₂ (RelPair ρ) (upvalueTable lua52 f) es) :
    RelValue ρ (carried lua52 u) (rawget es (.ofNat (i + 1))) := by
  have hlt : i < f.upvalues.length := (List.getElem?_eq_some_iff.1 hi).1
  have hrel := rawget_rel_ofNat hes (i + 1)
  rwa [upvalueTable_eq, rawget_arrayEntries (by rw [List.length_map]; omega) (by omega),
    List.getElem?_map, hi] at hrel

/-- A border of the table of upvalues is no position beyond them. -/
theorem border_upvalueTable (hu : f.upvalues.length < 256) (hn : n < 2 ^ 31)
    (hes : List.Forall₂ (RelPair ρ) (upvalueTable lua52 f) es) (hb : Border es n) :
    n ≤ f.upvalues.length ∧ ∀ u, f.upvalues[n]? = some u → carried lua52 u = .nil := by
  rw [border_rel hes, upvalueTable_eq,
    border_arrayEntries (by rw [List.length_map]; omega) (by omega)] at hb
  obtain ⟨hprev, hnext⟩ := hb
  constructor
  · by_contra hlt
    refine hprev (by omega) ?_
    rw [List.getElem?_eq_none (by rw [List.length_map]; omega)]
    rfl
  · intro u hun
    rwa [List.getElem?_map, hun] at hnext

theorem carried_eq_nil (hc : carried lua52 u = .nil) : isEnv lua52 u = false ∧ u.2 = .nil := by
  cases henv : isEnv lua52 u with
  | true =>
      rw [carried, henv] at hc
      cases hc
  | false => exact ⟨rfl, by rwa [carried_of_followed henv] at hc⟩

/-- **A function that survives is restored**, whatever border the operator returns. -/
theorem relUpvalue_restored (hs : Survives lua52 f) (hu : f.upvalues.length < 256)
    (hv : L.lua52 = lua52) (hm : Measures L.objlen)
    (hes : List.Forall₂ (RelPair ρ) (upvalueTable lua52 f) es) :
    List.Forall₂ (RelUpvalue lua52 ρ) f.upvalues (L.restored f es).upvalues := by
  have hlen := length_upvalueTable hu hes
  obtain ⟨hborder, hlt⟩ := hm es (by omega)
  obtain ⟨-, hnil⟩ := border_upvalueTable hu hlt hes hborder
  refine List.forall₂_iff_get.2 ⟨length_restored.symm, fun i hi hi' ↦ ?_⟩
  have hget : f.upvalues[i]? = some f.upvalues[i] := List.getElem?_eq_getElem hi
  have hget' := @getElem?_restored L f es i
  rw [hget, List.getElem?_eq_getElem hi'] at hget'
  have heq : (L.restored f es).upvalues[i] = (f.upvalues[i].1, L.arrives f es i) :=
    Option.some.inj hget'
  rw [List.get_eq_getElem, List.get_eq_getElem, heq]
  refine ⟨rfl, fun henv ↦ ?_⟩
  have hrel := rawget_upvalue hu hget hes
  rw [carried_of_followed henv] at hrel
  unfold Lua.arrives
  split
  · rw [upvalue_of_not_marker]
    · exact hrel
    · intro h52
      have hmark := hs.marker (hv ▸ h52) _ (List.getElem_mem hi) henv
      cases hval : f.upvalues[i].2 with
      | object c =>
          rw [hval] at hrel
          obtain ⟨c', hc', -⟩ := hrel
          rw [hc']
          rfl
      | nil | boolean | lightuserdata | number | string =>
          rw [hval] at hrel hmark
          have hw : rawget es (.ofNat (i + 1)) = _ := hrel
          rw [hw]
          exact hmark
  · -- the operator has not counted so far: there is a `nil` here, or there was one before
    rename_i hle
    have hni : L.objlen es ≤ i := by omega
    have hgetn := List.getElem?_eq_getElem (Nat.lt_of_le_of_lt hni hi)
    obtain ⟨henvn, hniln⟩ := carried_eq_nil (hnil _ hgetn)
    have hvi : f.upvalues[i].2 = .nil := by
      rcases Nat.eq_or_lt_of_le hni with heq | hlt
      · simpa only [heq] using hniln
      · exact hs.gapless _ _ _ _ hlt hgetn hget henvn henv hniln
    rw [if_neg]
    · rw [hvi]
      rfl
    · rw [Bool.and_eq_true, beq_iff_eq]
      rintro ⟨h52, hone⟩
      obtain ⟨u, hfu⟩ := List.length_eq_one_iff.1 hone
      have hi0 : f.upvalues[i] = u := by
        have : i = 0 := by omega
        subst this
        simp [hfu]
      exact hs.single (hv ▸ h52) u hfu (hi0 ▸ henv) (hi0 ▸ hvi)

/-! ## What the least border restores -/

theorem upvalue_eq_nil (hg : ∃ c, L.globals = .object c) (hv : L.upvalue v = .nil) : v = .nil := by
  obtain ⟨c, hc⟩ := hg
  rw [Lua.upvalue] at hv
  split at hv
  · rw [hc] at hv
    cases hv
  · exact hv

/-- The marker is never an upvalue. -/
theorem upvalue_ne_marker (hg : ∃ c, L.globals = .object c) (h52 : L.lua52 = true)
    (hm : readsAsMarker v = true) (w : Value) : L.upvalue w ≠ v := by
  obtain ⟨c, hc⟩ := hg
  rintro rfl
  rw [Lua.upvalue] at hm
  split at hm
  · rw [hc] at hm
    cases hm
  · rename_i hs
    rw [h52, hm] at hs
    exact hs rfl

/-- Where `nil` arrives the operator has stopped counting. -/
theorem firstBorder_le_of_arrives (hg : ∃ c, L.globals = .object c) (ho : L.objlen = firstBorder)
    (hlen : es.length < 2 ^ 31) (hn : L.arrives f es i = .nil) :
    firstBorder es ≤ i ∧ (L.lua52 && f.upvalues.length == 1) = false := by
  unfold Lua.arrives at hn
  rw [ho] at hn
  split at hn
  · rename_i hle
    exact absurd (upvalue_eq_nil hg hn) ((firstBorder_spec hlen).2.2 i (by omega))
  · rename_i hle
    split at hn
    · obtain ⟨c, hc⟩ := hg
      rw [hc] at hn
      cases hn
    · rename_i hs
      exact ⟨by omega, by simpa using hs⟩

/-- **What was restored with the least border survives**, and so does its original. -/
theorem survives_of_arrives (hg : ∃ c, L.globals = .object c) (ho : L.objlen = firstBorder)
    (hv : L.lua52 = lua52) (hlen : es.length < 2 ^ 31)
    (hlength : g.upvalues.length = f.upvalues.length)
    (hat : ∀ (i : Nat) u, g.upvalues[i]? = some u → isEnv lua52 u = false →
      ∃ ρ, RelValue ρ u.2 (L.arrives f es i)) : Survives lua52 g := by
  have hnil : ∀ (i : Nat) u, g.upvalues[i]? = some u → isEnv lua52 u = false → u.2 = .nil →
      firstBorder es ≤ i ∧ (L.lua52 && f.upvalues.length == 1) = false := fun i u hi henv hu ↦
    have ⟨_, hval⟩ := hat i u hi henv
    firstBorder_le_of_arrives hg ho hlen (hval.eq_nil_iff.2 hu)
  refine ⟨fun i j u w hij hi hj henv henw hu ↦ ?_, fun h52 u hm henv ↦ ?_,
    fun h52 u hone henv hu ↦ ?_⟩
  · obtain ⟨hle, hmany⟩ := hnil i u hi henv hu
    obtain ⟨_, hval⟩ := hat j w hj henw
    refine hval.eq_nil_iff.1 ?_
    rw [Lua.arrives, ho, if_neg (by omega), hmany]
    rfl
  · obtain ⟨i, hi⟩ := List.mem_iff_getElem?.1 hm
    obtain ⟨ρ, hval⟩ := hat i u hi henv
    by_contra hmark
    rw [Bool.not_eq_false] at hmark
    cases hu : u.2 with
    | string s =>
        rw [hu] at hval hmark
        have harr : L.arrives f es i = .string s := hval
        unfold Lua.arrives at harr
        split at harr
        · exact upvalue_ne_marker hg (hv.trans h52) hmark _ harr
        · obtain ⟨c, hc⟩ := hg
          rw [hc] at harr
          split at harr <;> cases harr
    | nil | boolean | lightuserdata | number | object =>
        rw [hu] at hmark
        cases hmark
  · have hmany := (hnil 0 u (by rw [hone]; rfl) henv hu).2
    rw [hv.trans h52, ← hlength, hone] at hmany
    cases hmany

theorem survives_of_restored (hg : ∃ c, L.globals = .object c) (ho : L.objlen = firstBorder)
    (hv : L.lua52 = lua52) (hlen : es.length < 2 ^ 31)
    (hrel : List.Forall₂ (RelUpvalue lua52 ρ) g.upvalues (L.restored f es).upvalues) :
    Survives lua52 g := by
  refine survives_of_arrives hg ho hv hlen (hrel.length_eq.trans length_restored) ?_
  intro i u hi henv
  obtain ⟨u', hu', -, hval⟩ := exists_of_forall₂ hrel hi
  rw [getElem?_restored, Option.map_eq_some_iff] at hu'
  obtain ⟨w, -, rfl⟩ := hu'
  exact ⟨ρ, hval henv⟩

/-! ## What is found in the copy -/

/-- `b` is found in the object at `a`. -/
def Holds (lua52 : Bool) (h : Heap) (a b : Nat) : Prop :=
  match h[a]? with
  | some (.table t) => ∃ e ∈ t.entries, e.1 = .object b ∨ e.2 = .object b
  | some (.function f) => ∃ (i : Nat) (u : String × Value), f.upvalues[i]? = some u ∧
      isEnv lua52 u = false ∧ u.2 = .object b
  | _ => False

/-- `x` is `n` steps below `r`. -/
def At (lua52 : Bool) (h : Heap) (r : Nat) : Nat → Nat → Prop
  | 0, x => x = r
  | n + 1, x => ∃ y, At lua52 h r n y ∧ Inside lua52 h y x

theorem exists_at (hr : Relation.ReflTransGen (Inside lua52 h) r a) : ∃ n, At lua52 h r n a := by
  induction hr with
  | refl => exact ⟨0, rfl⟩
  | tail _ hi ih =>
      obtain ⟨n, hn⟩ := ih
      exact ⟨n + 1, _, hn, hi⟩

theorem At.below (ha : At lua52 h r n a) : Below lua52 h (.object r) a := by
  induction n generalizing a with
  | zero =>
      cases ha
      exact ⟨_, rfl, .refl⟩
  | succ n ih =>
      obtain ⟨y, hy, hi⟩ := ha
      exact (ih hy).inside hi

theorem Inside.holds (hi : Inside lua52 h a b) : Holds lua52 h a b := by
  obtain ⟨-, hm⟩ := hi
  unfold Holds
  cases ho : h[a]? with
  | none =>
      rw [ho] at hm
      exact hm.elim
  | some o =>
      rw [ho] at hm
      cases o with
      | table t => exact hm.2
      | function f =>
          obtain ⟨u, hu, hb⟩ := hm
          obtain ⟨hmem, henv⟩ := List.mem_filter.1 hu
          obtain ⟨i, hi⟩ := List.mem_iff_getElem?.1 hmem
          rw [Bool.not_eq_true'] at henv
          exact ⟨i, u, hi, henv, hb⟩
      | userdata | thread => exact hm.elim

theorem Holds.inside (hh : WellFormedHeap h) (hp : Copyable lua52 L h (.object r))
    (ha : At lua52 h r n a) (hb : Holds lua52 h a b) : Inside lua52 h a b := by
  obtain ⟨r', hr, hra⟩ := ha.below
  have hgood := hp r' hr a hra
  unfold Holds at hb
  split at hb
  · rename_i t ht
    obtain ⟨e, he, hb⟩ := hb
    rw [ht] at hgood
    exact hh.inside_entry ht hgood he hb
  · rename_i f hf
    obtain ⟨i, u, hi, henv, hb⟩ := hb
    exact hh.inside_upvalue hf (List.mem_of_getElem? hi) henv hb
  · exact hb.elim

/-- What is found in an object is found in its copy. -/
theorem Holds.copy {c : Nat} (hρ : IsFullCopy lua52 ρ h h') (hab : ρ a b)
    (hc : Holds lua52 h a c) : ∃ c', ρ c c' ∧ Holds lua52 h' b c' := by
  obtain ⟨o, o', ho, ho', hrel⟩ := hρ.objects a b hab
  unfold Holds at hc ⊢
  rw [ho] at hc
  rw [ho']
  cases o with
  | table t =>
      cases o' with
      | table t' =>
          obtain ⟨es, hperm, hes⟩ := hrel
          obtain ⟨e, he, hec⟩ := hc
          obtain ⟨i, hi⟩ := List.mem_iff_getElem?.1 he
          obtain ⟨e', he', hk, hv⟩ := exists_of_forall₂ hes hi
          have hmem : e' ∈ t'.entries := hperm.mem_iff.1 (List.mem_of_getElem? he')
          rcases hec with hec | hec
          · rw [hec] at hk
            obtain ⟨c', hc', hcc⟩ := hk
            exact ⟨c', hcc, e', hmem, .inl hc'⟩
          · rw [hec] at hv
            obtain ⟨c', hc', hcc⟩ := hv
            exact ⟨c', hcc, e', hmem, .inr hc'⟩
      | function | userdata | thread => exact hrel.elim
  | function f =>
      cases o' with
      | function f' =>
          obtain ⟨-, -, hups⟩ := hrel
          obtain ⟨i, u, hi, henv, huc⟩ := hc
          obtain ⟨u', hu', hname, hval⟩ := exists_of_forall₂ hups hi
          have hval := hval henv
          rw [huc] at hval
          obtain ⟨c', hc', hcc⟩ := hval
          refine ⟨c', hcc, i, u', hu', ?_, hc'⟩
          rw [isEnv, hname]
          exact henv
      | table | userdata | thread => exact hrel.elim
  | userdata | thread => exact hc.elim

theorem eq_object_of_relValue {c : Nat} (hv : RelValue ρ v (.object c)) :
    ∃ c', v = .object c' ∧ ρ c' c := by
  cases v with
  | object c' =>
      obtain ⟨b, hb, hc⟩ := hv
      cases hb
      exact ⟨c', rfl, hc⟩
  | nil | boolean | lightuserdata | number | string =>
      have : Value.object c = _ := hv
      cases this

/-- What is found in a copy that was made was made from what is found in the original, a
table or a function that survives. -/
theorem Holds.original {c : Nat} (hh : WellFormedHeap h) (hm : Measures L.objlen)
    (hc : Complete L κ h h' a b)
    (hs : ∀ f, h[a]? = some (.function f) → Survives L.lua52 f) (hb : Holds L.lua52 h' b c) :
    ∃ c', κ c' c ∧ Holds L.lua52 h a c' := by
  unfold Complete at hc
  unfold Holds at hb ⊢
  cases ho : h[a]? with
  | none =>
      rw [ho] at hc
      exact hc.elim
  | some o =>
      rw [ho] at hc
      cases o with
      | table t =>
          obtain ⟨t', ht', hes⟩ := hc
          rw [ht'] at hb
          obtain ⟨e', he', hec⟩ := hb
          obtain ⟨i, hi⟩ := List.mem_iff_getElem?.1 he'
          obtain ⟨e, he, hk, hv⟩ := exists_of_forall₂_right hes hi
          have hmem := List.mem_of_getElem? he
          rcases hec with hec | hec
          · rw [hec] at hk
            obtain ⟨c', hc', hcc⟩ := eq_object_of_relValue hk
            exact ⟨c', hcc, e, hmem, .inl hc'⟩
          · rw [hec] at hv
            obtain ⟨c', hc', hcc⟩ := eq_object_of_relValue hv
            exact ⟨c', hcc, e, hmem, .inr hc'⟩
      | function f =>
          obtain ⟨es, hf', hes⟩ := hc
          rw [hf'] at hb
          obtain ⟨i, u', hi, henv, hec⟩ := hb
          have hups := relUpvalue_restored (hs f ho) (hh.functions a f ho) rfl hm hes
          obtain ⟨u, hu, hname, hval⟩ := exists_of_forall₂_right hups hi
          have henv' : isEnv L.lua52 u = false := by
            rw [isEnv, ← hname]
            exact henv
          have hval := hval henv'
          rw [hec] at hval
          obtain ⟨c', hc', hcc⟩ := eq_object_of_relValue hval
          exact ⟨c', hcc, i, u, hu, henv', hc'⟩
      | userdata | thread => exact hc.elim

section

variable (hh : WellFormedHeap h) (hg : ∃ c, L.globals = .object c) (ho : L.objlen = firstBorder)
  (hρ : IsFullCopy L.lua52 ρ h h') (hκ : ∀ a b, κ a b → Complete L κ h h' a b)

include hh hg ho hρ hκ

/-- An object whose copy was made with the least border survives. -/
theorem survives_of_copies {x y : Nat} (hx : ρ x b) (hy : κ y b)
    (hf : h[x]? = some (.function g)) : Survives L.lua52 g := by
  obtain ⟨o, o', hox, hob, hrel⟩ := hρ.objects x b hx
  rw [hf] at hox
  cases hox
  have hc := hκ y b hy
  unfold Complete at hc
  split at hc
  · obtain ⟨t', ht', -⟩ := hc
    rw [hob] at ht'
    cases ht'
    exact hrel.elim
  · rename_i f hfy
    obtain ⟨es, hes, hups⟩ := hc
    rw [hob] at hes
    cases hes
    have hlen := length_upvalueTable (hh.functions y f hfy) hups
    exact survives_of_restored hg ho rfl (by omega) hrel.2.2
  · exact hc.elim

/-- **Whatever is found in the copy at some depth was made from something at this depth.** -/
theorem exists_copy_at {r' : Nat} (hp : Copyable L.lua52 L h (.object r)) (hr : ρ r r')
    (hr' : κ r r') : ∀ n x, At L.lua52 h r n x → ∃ b y, ρ x b ∧ κ y b ∧ At L.lua52 h r n y
  | 0, x, hx => by
      cases hx
      exact ⟨r', _, hr, hr', rfl⟩
  | n + 1, x, hx => by
      obtain ⟨x₀, hx₀, hi⟩ := hx
      obtain ⟨b₀, y₀, hxb, hyb, hy₀⟩ := exists_copy_at hp hr hr' n x₀ hx₀
      obtain ⟨b, hxb', hb⟩ := (Inside.holds hi).copy hρ hxb
      have hs : ∀ f, h[y₀]? = some (.function f) → Survives L.lua52 f := by
        intro f hf
        obtain ⟨b', y', hb', hy', -⟩ := exists_copy_at hp hr hr' n y₀ hy₀
        exact survives_of_copies hh hg ho hρ hκ hb' hy' hf
      have hm : Measures L.objlen := ho ▸ measures_firstBorder
      obtain ⟨y, hyb', hy⟩ := hb.original hh hm (hκ y₀ b₀ hyb) hs
      exact ⟨b, y, hxb', hyb', y₀, hy₀, hy.inside hh hp hy₀⟩

end

/-! ## All upvalues -/

/-- What was made of functions that survive is a copy. -/
theorem isFullCopy (hh : WellFormedHeap h) (hm : Measures L.objlen)
    (hp : Copyable L.lua52 L h v) (hfun : ∀ a b b', κ a b → κ a b' → b = b')
    (hinj : ∀ a a' b, κ a b → κ a' b → a = a') (hκ : ∀ a b, κ a b → Complete L κ h h' a b)
    (hs : ∀ b f, Below L.lua52 h v b → h[b]? = some (.function f) → Survives L.lua52 f) :
    IsFullCopy L.lua52 (fun a b ↦ κ a b ∧ Below L.lua52 h v a) h h' where
  functional a b b' hab hab' := hfun a b b' hab.1 hab'.1
  injective a a' b hab hab' := hinj a a' b hab.1 hab'.1
  objects a b hab := by
    obtain ⟨hab, hbelow⟩ := hab
    have hgood : ∃ r, v = .object r ∧ Relation.ReflTransGen (Inside L.lua52 h) r a := hbelow
    obtain ⟨r, hr, hra⟩ := hgood
    have hgood := hp r hr a hra
    have hc := hκ a b hab
    unfold Complete at hc
    split at hc
    · rename_i t ht
      obtain ⟨t', ht', hes⟩ := hc
      rw [ht] at hgood
      have hin : ∀ e ∈ t.entries, ∀ c, e.1 = .object c ∨ e.2 = .object c →
          Below L.lua52 h v c :=
        fun e he c hec ↦ hbelow.inside (hh.inside_entry ht hgood he hec)
      refine ⟨_, _, ht, ht', t'.entries, .refl _, ?_⟩
      refine ((List.forall₂_and_left _ _).2 ⟨hin, hes⟩).imp fun e e' ⟨hb, hee⟩ ↦ ?_
      exact ⟨hee.1.restrict fun c hc ↦ hb c (.inl hc), hee.2.restrict fun c hc ↦ hb c (.inr hc)⟩
    · rename_i f hf
      obtain ⟨es, hf', hes⟩ := hc
      have hups := relUpvalue_restored (hs a f hbelow hf) (hh.functions a f hf) rfl hm hes
      have hin : ∀ u ∈ f.upvalues, isEnv L.lua52 u = false → ∀ c, u.2 = .object c →
          Below L.lua52 h v c :=
        fun u hu henv c huc ↦ hbelow.inside (hh.inside_upvalue hf hu henv huc)
      refine ⟨_, _, hf, hf', rfl, rfl, ?_⟩
      refine ((List.forall₂_and_left _ _).2 ⟨hin, hups⟩).imp fun u u' ⟨hb, hname, hval⟩ ↦ ?_
      exact ⟨hname, fun henv ↦ (hval henv).restrict (hb henv)⟩
    · exact hc.elim

/-- A value without hooks is copied if its functions can be loaded. -/
theorem copyable_of_hookless (hh : WellFormedHeap h) (hv : Hookless lua52 h (.object a))
    (ha : a < h.length) (hver : L.lua52 = lua52) (hm : Measures L.objlen)
    (hload : ∀ b f, Below lua52 h (.object a) b → h[b]? = some (.function f) →
      L.load f.dump = .ok (L.prototype f)) : Copyable lua52 L h (.object a) := by
  intro a' ha' b hb
  cases ha'
  have hlt : b < h.length := by
    rcases hb.cases_tail with rfl | ⟨c, -, hc⟩
    · exact ha
    · exact hc.1
  have hgood := hv a rfl b hb
  cases ho : h[b]? with
  | none => exact absurd (List.getElem?_eq_none_iff.1 ho) (by omega)
  | some o =>
      rw [ho] at hgood
      cases o with
      | table t => exact hgood
      | userdata u => exact hgood
      | thread => trivial
      | function f =>
          refine ⟨hver, hload b f ⟨a, rfl, hb⟩ ho, fun ρ es hes ↦ ?_⟩
          have hu := hh.functions b f ho
          obtain ⟨hborder, hl⟩ := hm es (by have := length_upvalueTable hu hes; omega)
          exact (border_upvalueTable hu hl hes hborder).1

section

variable {depth depth' : Nat} {bs : List UInt8} {h₁ : Heap}

/-- What is known of a function that was sent: the functions in it can be loaded, and it was
marshalled. -/
structure Sent (L : Lua) (h : Heap) (a : Nat) (f : Closure) : Prop where
  heap : WellFormedHeap h
  function : h[a]? = some (.function f)
  hookless : Hookless L.lua52 h (.object a)
  /-- `lua_load` reproduces the prototypes. -/
  load : ∀ b c, Below L.lua52 h (.object a) b → h[b]? = some (.function c) →
    L.load c.dump = .ok (L.prototype c)
  /-- The globals are a table. -/
  globals : ∃ c, L.globals = .object c

namespace Sent

variable (hS : Sent L h a f)

include hS

theorem copyable (hm : Measures L.objlen) : Copyable L.lua52 L h (.object a) :=
  copyable_of_hookless hS.heap hS.hookless (List.getElem?_eq_some_iff.1 hS.function).1 rfl hm
    hS.load

/-- **The function is restored**, in a heap of copies. -/
theorem marDecode_function (hm : Measures L.objlen) (h' : Heap) (hd : depth ≤ depth')
    (he : marEncode hooks L.lua52 nowrap depth (.object a) h = .ok (bs, h₁)) :
    ∃ (κ : Nat → Nat → Prop) (r' : Nat) (es : List (Value × Value)) (h'' : Heap),
      marDecode L depth' bs h' = .ok (.object r', h'') ∧ κ a r' ∧
      (∀ a b b', κ a b → κ a b' → b = b') ∧ (∀ a a' b, κ a b → κ a' b → a = a') ∧
      (∀ a b, κ a b → Complete L κ h h'' a b) ∧
      h''[r']? = some (.function (L.restored f es)) ∧
      List.Forall₂ (RelPair κ) (upvalueTable L.lua52 f) es := by
  obtain ⟨-, v', st', d', hdec, hb, r', rfl, hr⟩ :=
    marDecode_built h' hS.heap (hS.copyable hm) hd he
  have hc := (hb.done a r' hr rfl).2
  unfold Complete at hc
  rw [hS.function] at hc
  obtain ⟨es, hes, hf⟩ := hc
  exact ⟨CopyOf st' d', r', es, d'.heap, hdec, hr, fun _ _ _ hab hab' ↦ hab.functional hab',
    hb.sim.injective, fun a b hab ↦ (hb.done a b hab rfl).2, hes, hf⟩

/-- Functions that survive arrive. -/
theorem arrived_of_survives (hm : Measures L.objlen) (h' : Heap) (hd : depth ≤ depth')
    (he : marEncode hooks L.lua52 nowrap depth (.object a) h = .ok (bs, h₁))
    (hs : ∀ b c, Below L.lua52 h (.object a) b → h[b]? = some (.function c) →
      Survives L.lua52 c) :
    ∃ v' h'', marDecode L depth' bs h' = .ok (v', h'') ∧ Arrived L.lua52 h f h'' v' := by
  obtain ⟨κ, r', es, h'', hdec, hr, hfun, hinj, hκ, hf', hes⟩ := hS.marDecode_function hm h' hd he
  have hroot : Below L.lua52 h (.object a) a := ⟨a, rfl, .refl⟩
  have hcopy := isFullCopy hS.heap hm (hS.copyable hm) hfun hinj hκ hs
  have hups := relUpvalue_restored (hs a f hroot hS.function) (hS.heap.functions a f hS.function)
    rfl hm hes
  refine ⟨_, h'', hdec, r', _, rfl, hf', length_restored, fun i u hi henv ↦ ?_⟩
  obtain ⟨u', hu', -, hval⟩ := exists_of_forall₂ hups hi
  refine ⟨u', hu', _, hcopy, (hval henv).restrict fun c hc ↦ hroot.inside ?_⟩
  exact hS.heap.inside_upvalue hS.function (List.mem_of_getElem? hi) henv hc

/-- Functions that arrive with the least border survive. -/
theorem survives_of_arrived (ho : L.objlen = firstBorder) {h' h'' : Heap} {v' : Value}
    (hd : depth ≤ depth')
    (he : marEncode hooks L.lua52 nowrap depth (.object a) h = .ok (bs, h₁))
    (hdec : marDecode L depth' bs h' = .ok (v', h'')) (harr : Arrived L.lua52 h f h'' v')
    (hb : Below L.lua52 h (.object a) b) (hg : h[b]? = some (.function g)) :
    Survives L.lua52 g := by
  have hm : Measures L.objlen := ho ▸ measures_firstBorder
  have hp := hS.copyable hm
  obtain ⟨κ, r', es, h₂, hdec', hr, hfun, hinj, hκ, hf', hes⟩ := hS.marDecode_function hm h' hd he
  rw [hdec] at hdec'
  cases hdec'
  obtain ⟨r, f', hr', hfr, hlen, hat⟩ := harr
  cases hr'
  rw [hf'] at hfr
  cases hfr
  have hsmall := hS.heap.functions a f hS.function
  have hroot : Survives L.lua52 f := by
    have hlt : es.length < 2 ^ 31 := by
      have := length_upvalueTable hsmall hes
      omega
    refine survives_of_arrives hS.globals ho rfl hlt rfl fun i u hi henv ↦ ?_
    obtain ⟨u', hu', ρ, -, hval⟩ := hat i u hi henv
    rw [getElem?_restored, hi] at hu'
    cases hu'
    exact ⟨ρ, hval⟩
  obtain ⟨a', ha', hab⟩ := hb
  cases ha'
  rcases hab.cases_head with rfl | ⟨x, hax, hxb⟩
  · rw [hS.function] at hg
    cases hg
    exact hroot
  · -- the first step leads through an upvalue
    have hin := Inside.holds hax
    unfold Holds at hin
    rw [hS.function] at hin
    obtain ⟨i, u, hi, henv, hux⟩ := hin
    obtain ⟨u', hu', ρ, hρ, hval⟩ := hat i u hi henv
    have hups := relUpvalue_restored hroot hsmall rfl hm hes
    obtain ⟨u'', hu'', -, hval'⟩ := exists_of_forall₂ hups hi
    have hval' := hval' henv
    rw [hu'] at hu''
    cases hu''
    rw [hux] at hval hval'
    obtain ⟨x', hx', hρx⟩ := hval
    obtain ⟨x'', hx'', hκx⟩ := hval'
    rw [hx'] at hx''
    cases hx''
    obtain ⟨n, hn⟩ := exists_at hxb
    have hpx : Copyable L.lua52 L h (.object x) := hp.of_inside fun c hc ↦ by
      cases hc
      exact hax
    obtain ⟨b', y, hb', hy, -⟩ :=
      exists_copy_at hS.heap hS.globals ho hρ hκ hpx hρx hκx n b hn
    exact survives_of_copies hS.heap hS.globals ho hρ hκ hb' hy hg

end Sent

/-- A function with two upvalues. -/
def twoUpvalues (v w : Value) : Closure := { what := .lua, upvalues := [("a", v), ("b", w)] }

/-- Lua 5.1, with an operator that returns the least border. -/
def lua51 : Lua where
  lua52 := false
  globals := .object 0
  load _ := .ok (twoUpvalues .nil .nil)
  call _ _ := .raised ""
  objlen := firstBorder

theorem lua51_sent (v w : Value) (hv : ∀ a, v ≠ .object a) (hw : ∀ a, w ≠ .object a) :
    Sent lua51 [.function (twoUpvalues v w)] 0 (twoUpvalues v w) := by
  have hfun : ∀ (a : Nat) o, [Object.function (twoUpvalues v w)][a]? = some o →
      o = .function (twoUpvalues v w) := by
    intro a o ho
    cases a with
    | zero =>
        cases ho
        rfl
    | succ a => cases ho
  have hups : ∀ u ∈ (twoUpvalues v w).upvalues, ∀ b, u.2 ≠ .object b := by
    intro u hu b hb
    simp only [twoUpvalues, List.mem_cons, List.not_mem_nil, or_false] at hu
    rcases hu with rfl | rfl
    · exact hv b hb
    · exact hw b hb
  refine ⟨⟨?_, ?_, ?_, ?_⟩, rfl, ?_, ?_, 0, rfl⟩
  · intro a t ht
    cases hfun a _ ht
  · intro a t ht
    cases hfun a _ ht
  · intro a f hf
    cases hfun a _ hf
    simp [twoUpvalues]
  · intro a f hf u hu b hb
    cases hfun a _ hf
    exact absurd hb (hups u hu b)
  · intro a _ b _
    cases hb : [Object.function (twoUpvalues v w)][b]? with
    | none => trivial
    | some o =>
        cases hfun b o hb
        trivial
  · intro b c _ hc
    cases hfun b _ hc
    rfl

end

end

end Leda.Marshal
