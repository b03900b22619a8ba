import Leda.Lua.Table
import Mathlib.Data.List.Perm.Basic

/-!
# Copies

Two values, each in its own heap, are **isomorphic** if the tables below the one
correspond to the tables below the other: one table to one table, so that sharing and
cycles are the same, with the same pairs in any order, and scalars to themselves
(`Iso`).  The correspondence is a relation `ρ` between references, and `RelValue ρ` lifts
it to values.

Isomorphism is symmetric and transitive (`Iso.symm`, `Iso.trans`), and is not disturbed
by what happens to other objects (`Iso.mono`).

`FullIso` is isomorphism of values that hold functions too: of the same code, with
corresponding upvalues.
-/

namespace Leda.Lua

variable {ρ ρ' σ : Nat → Nat → Prop} {h h' h'' : Heap} {v v' v'' w w' : Value} {a b : Nat}

/-- Equal scalars, or corresponding references. -/
def RelValue (ρ : Nat → Nat → Prop) : Value → Value → Prop
  | .object a, v' => ∃ b, v' = .object b ∧ ρ a b
  | v, v' => v' = v

/-- Corresponding keys and values. -/
def RelPair (ρ : Nat → Nat → Prop) (e e' : Value × Value) : Prop :=
  RelValue ρ e.1 e'.1 ∧ RelValue ρ e.2 e'.2

namespace RelValue

theorem mono (hρ : ∀ a b, ρ a b → ρ' a b) (h : RelValue ρ v v') : RelValue ρ' v v' := by
  cases v with
  | object a =>
      obtain ⟨b, rfl, hb⟩ := h
      exact ⟨b, rfl, hρ a b hb⟩
  | nil | boolean | lightuserdata | number | string => exact h

theorem symm (h : RelValue ρ v v') : RelValue (fun b a ↦ ρ a b) v' v := by
  cases v with
  | object a =>
      obtain ⟨b, rfl, hb⟩ := h
      exact ⟨a, rfl, hb⟩
  | nil | boolean | lightuserdata | number | string =>
      obtain rfl : v' = _ := h
      exact rfl

theorem trans (h : RelValue ρ v v') (h' : RelValue σ v' v'') :
    RelValue (fun a c ↦ ∃ b, ρ a b ∧ σ b c) v v'' := by
  cases v with
  | object a =>
      obtain ⟨b, rfl, hb⟩ := h
      obtain ⟨c, rfl, hc⟩ := h'
      exact ⟨c, rfl, b, hb, hc⟩
  | nil | boolean | lightuserdata | number | string =>
      obtain rfl : v' = _ := h
      exact h'

theorem eq_nil_iff (h : RelValue ρ v v') : v' = .nil ↔ v = .nil := by
  cases v with
  | object a =>
      obtain ⟨b, rfl, -⟩ := h
      simp
  | nil | boolean | lightuserdata | number | string =>
      obtain rfl : v' = _ := h
      simp

theorem isKey_eq (h : RelValue ρ v v') : isKey v' = isKey v := by
  cases v with
  | object a =>
      obtain ⟨b, rfl, -⟩ := h
      rfl
  | nil | boolean | lightuserdata | number | string =>
      obtain rfl : v' = _ := h
      rfl

/-- Different keys stay different. -/
theorem rawEq_eq_false (hinj : ∀ a a' b, ρ a b → ρ a' b → a = a') (h : RelValue ρ v v')
    (h' : RelValue ρ w w') (hne : rawEq v w = false) : rawEq v' w' = false := by
  cases v with
  | object a =>
      obtain ⟨b, rfl, hb⟩ := h
      cases w with
      | object a' =>
          obtain ⟨b', rfl, hb'⟩ := h'
          have hne' : a ≠ a' := by simpa [rawEq] using hne
          have hb : b ≠ b' := by
            rintro rfl
            exact hne' (hinj a a' b hb hb')
          simpa [rawEq] using hb
      | nil | boolean | lightuserdata | number | string =>
          obtain rfl : w' = _ := h'
          simp [rawEq]
  | nil | boolean | lightuserdata | number | string =>
      obtain rfl : v' = _ := h
      cases w with
      | object a' =>
          obtain ⟨b', rfl, -⟩ := h'
          simp [rawEq]
      | nil | boolean | lightuserdata | number | string =>
          obtain rfl : w' = _ := h'
          exact hne

end RelValue

theorem RelPair.mono {e e' : Value × Value} (hρ : ∀ a b, ρ a b → ρ' a b) (h : RelPair ρ e e') :
    RelPair ρ' e e' :=
  ⟨h.1.mono hρ, h.2.mono hρ⟩

/-- **A one-to-one correspondence of tables** with corresponding pairs. -/
structure IsCopy (ρ : Nat → Nat → Prop) (h h' : Heap) : Prop where
  functional : ∀ a b b', ρ a b → ρ a b' → b = b'
  injective : ∀ a a' b, ρ a b → ρ a' b → a = a'
  tables : ∀ a b, ρ a b → ∃ t t' : Table, h[a]? = some (.table t) ∧ h'[b]? = some (.table t') ∧
    ∃ es, es.Perm t'.entries ∧ List.Forall₂ (RelPair ρ) t.entries es

/-- **Isomorphic values.** -/
def Iso (h : Heap) (v : Value) (h' : Heap) (v' : Value) : Prop :=
  ∃ ρ, IsCopy ρ h h' ∧ RelValue ρ v v'

theorem IsCopy.symm (hc : IsCopy ρ h h') : IsCopy (fun b a ↦ ρ a b) h' h where
  functional a b b' := hc.injective b b' a
  injective a a' b := hc.functional b a a'
  tables b a hab := by
    obtain ⟨t, t', ht, ht', es, hp, hf⟩ := hc.tables a b hab
    have hflip : List.Forall₂ (RelPair fun b a ↦ ρ a b) es t.entries :=
      hf.flip.imp fun e' e he ↦ ⟨he.1.symm, he.2.symm⟩
    obtain ⟨fs, hf', hp'⟩ := List.perm_comp_forall₂ hp.symm hflip
    exact ⟨t', t, ht', ht, fs, hp', hf'⟩

theorem IsCopy.trans (hc : IsCopy ρ h h') (hc' : IsCopy σ h' h'') :
    IsCopy (fun a c ↦ ∃ b, ρ a b ∧ σ b c) h h'' where
  functional := by
    rintro a c c' ⟨b, hab, hbc⟩ ⟨b', hab', hbc'⟩
    obtain rfl := hc.functional a b b' hab hab'
    exact hc'.functional b c c' hbc hbc'
  injective := by
    rintro a a' c ⟨b, hab, hbc⟩ ⟨b', hab', hbc'⟩
    obtain rfl := hc'.injective b b' c hbc hbc'
    exact hc.injective a a' b hab hab'
  tables := by
    rintro a c ⟨b, hab, hbc⟩
    obtain ⟨t, t', ht, ht', es, hp, hf⟩ := hc.tables a b hab
    obtain ⟨t'₂, t'', ht'₂, ht'', fs, hq, hg⟩ := hc'.tables b c hbc
    obtain rfl : t' = t'₂ := by
      have := ht'.symm.trans ht'₂
      cases this
      rfl
    obtain ⟨gs, hg', hq'⟩ := List.perm_comp_forall₂ hp hg
    refine ⟨t, t'', ht, ht'', gs, hq'.trans hq, ?_⟩
    exact (List.forall₂_iff_get.2 ⟨hf.length_eq.trans hg'.length_eq, fun i hi hi' ↦ by
      have hie : i < es.length := hf.length_eq ▸ hi
      have h₁ := List.forall₂_iff_get.1 hf |>.2 i hi hie
      have h₂ := List.forall₂_iff_get.1 hg' |>.2 i hie hi'
      exact ⟨h₁.1.trans h₂.1, h₁.2.trans h₂.2⟩⟩)

theorem Iso.symm (hi : Iso h v h' v') : Iso h' v' h v := by
  obtain ⟨ρ, hc, hv⟩ := hi
  exact ⟨_, hc.symm, hv.symm⟩

theorem Iso.trans (hi : Iso h v h' v') (hi' : Iso h' v' h'' v'') : Iso h v h'' v'' := by
  obtain ⟨ρ, hc, hv⟩ := hi
  obtain ⟨σ, hc', hv'⟩ := hi'
  exact ⟨_, hc.trans hc', hv.trans hv'⟩

/-- Copies stay what they are when others are made. -/
theorem Iso.mono (hi : Iso h v h' v') (hh : ∀ (b : Nat) t, h'[b]? = some (.table t) →
    h''[b]? = some (.table t)) : Iso h v h'' v' := by
  obtain ⟨ρ, hc, hv⟩ := hi
  refine ⟨ρ, ⟨hc.functional, hc.injective, fun a b hab ↦ ?_⟩, hv⟩
  obtain ⟨t, t', ht, ht', hes⟩ := hc.tables a b hab
  exact ⟨t, t', ht, hh b t' ht', hes⟩

/-! ## Functions -/

/-- The environment, which a function of Lua 5.2 has among its upvalues. -/
def isEnv (lua52 : Bool) (u : String × Value) : Bool := lua52 && u.1.startsWith "_ENV"

/-- Corresponding upvalues; environments always correspond. -/
def RelUpvalue (lua52 : Bool) (ρ : Nat → Nat → Prop) (u u' : String × Value) : Prop :=
  u'.1 = u.1 ∧ (isEnv lua52 u = false → RelValue ρ u.2 u'.2)

/-- Corresponding tables, or functions. -/
def RelObject (lua52 : Bool) (ρ : Nat → Nat → Prop) : Object → Object → Prop
  | .table t, .table t' => ∃ es, es.Perm t'.entries ∧ List.Forall₂ (RelPair ρ) t.entries es
  | .function f, .function f' =>
      f'.what = f.what ∧ f'.dump = f.dump ∧
        List.Forall₂ (RelUpvalue lua52 ρ) f.upvalues f'.upvalues
  | _, _ => False

/-- **A one-to-one correspondence of tables and functions.** -/
structure IsFullCopy (lua52 : Bool) (ρ : Nat → Nat → Prop) (h h' : Heap) : Prop where
  functional : ∀ a b b', ρ a b → ρ a b' → b = b'
  injective : ∀ a a' b, ρ a b → ρ a' b → a = a'
  objects : ∀ a b, ρ a b → ∃ o o', h[a]? = some o ∧ h'[b]? = some o' ∧ RelObject lua52 ρ o o'

/-- **Isomorphic values**, with the functions they hold. -/
def FullIso (lua52 : Bool) (h : Heap) (v : Value) (h' : Heap) (v' : Value) : Prop :=
  ∃ ρ, IsFullCopy lua52 ρ h h' ∧ RelValue ρ v v'

/-! ## What values consist of -/

/-- An object that a value is, or holds at any depth. -/
def Below (lua52 : Bool) (h : Heap) (v : Value) (b : Nat) : Prop :=
  ∃ a, v = .object a ∧ Relation.ReflTransGen (Inside lua52 h) a b

theorem Below.inside {lua52 : Bool} (hb : Below lua52 h v a) (hi : Inside lua52 h a b) :
    Below lua52 h v b := by
  obtain ⟨r, rfl, hr⟩ := hb
  exact ⟨r, rfl, hr.tail hi⟩

/-- The keys and values of a table without a hook are inside it. -/
theorem WellFormedHeap.inside_entry {lua52 : Bool} (hh : WellFormedHeap h) {t : Table}
    (ht : h[a]? = some (.table t)) (hn : t.persist = none) {e : Value × Value}
    (he : e ∈ t.entries) (hb : e.1 = .object b ∨ e.2 = .object b) : Inside lua52 h a b := by
  refine ⟨hh.refs a t ht e he b hb, ?_⟩
  rw [ht]
  exact ⟨hn, e, he, hb⟩

/-- The upvalues of a function are inside it, but for the environment. -/
theorem WellFormedHeap.inside_upvalue {lua52 : Bool} (hh : WellFormedHeap h) {f : Closure}
    (hf : h[a]? = some (.function f)) {u : String × Value} (hu : u ∈ f.upvalues)
    (henv : isEnv lua52 u = false) (hb : u.2 = .object b) : Inside lua52 h a b := by
  refine ⟨hh.upvalues a f hf u hu b hb, ?_⟩
  rw [hf]
  refine ⟨u, List.mem_filter.2 ⟨hu, ?_⟩, hb⟩
  change (!isEnv lua52 u) = true
  rw [henv]
  rfl

/-- Corresponding lists have corresponding elements. -/
theorem exists_of_forall₂ {α β : Type} {R : α → β → Prop} {l : List α} {l' : List β} {i : Nat}
    {x : α} (hl : List.Forall₂ R l l') (hx : l[i]? = some x) : ∃ y, l'[i]? = some y ∧ R x y := by
  induction hl generalizing i with
  | nil => cases hx
  | cons hr _ ih =>
      cases i with
      | zero =>
          cases hx
          exact ⟨_, rfl, hr⟩
      | succ i => exact ih hx

theorem exists_of_forall₂_right {α β : Type} {R : α → β → Prop} {l : List α} {l' : List β}
    {i : Nat} {y : β} (hl : List.Forall₂ R l l') (hy : l'[i]? = some y) :
    ∃ x, l[i]? = some x ∧ R x y := by
  have hflip : List.Forall₂ (fun y x ↦ R x y) l' l := hl.flip
  exact exists_of_forall₂ hflip hy

/-- A correspondence may be restricted to what is below the values. -/
theorem RelValue.restrict {p : Nat → Prop} (hv : RelValue ρ v v') (hp : ∀ a, v = .object a → p a) :
    RelValue (fun a b ↦ ρ a b ∧ p a) v v' := by
  cases v with
  | object a =>
      obtain ⟨b, rfl, hb⟩ := hv
      exact ⟨b, rfl, hb, hp a rfl⟩
  | nil | boolean | lightuserdata | number | string => exact hv

/-- A value of nothing but scalars and tables without hooks. -/
def Plain (lua52 : Bool) (h : Heap) (v : Value) : Prop :=
  ∀ a, v = .object a → ∀ b, Relation.ReflTransGen (Inside lua52 h) a b →
    ∃ t : Table, h[b]? = some (.table t) ∧ t.persist = none

/-- No hook is found below a value. -/
def Hookless (lua52 : Bool) (h : Heap) (v : Value) : Prop :=
  ∀ a, v = .object a → ∀ b, Relation.ReflTransGen (Inside lua52 h) a b →
    match h[b]? with
    | some (.table t) => t.persist = none
    | some (.userdata u) => u.wrap = none ∧ u.persist = none
    | _ => True

theorem Plain.hookless {lua52 : Bool} (hp : Plain lua52 h v) : Hookless lua52 h v := by
  intro a ha b hb
  obtain ⟨t, ht, hn⟩ := hp a ha b hb
  rw [ht]
  exact hn

end Leda.Lua
