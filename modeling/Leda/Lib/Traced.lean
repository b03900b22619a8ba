import Leda.Lib.Xfer

/-!
# Computations that leave a trace

A `Traced W α` is a computation that may raise or crash, with what it has done until it
ended.  `Ensures p x post` is its contract: everything done has the property `p`, the
computation does not crash, and a value it returns satisfies `post`.  `Fails p x` is the
opposite, as far as `p` and crashes go.  Contracts are composed along `bind`, and a part
that fails makes the whole fail if it is reached (`Fails.of_left`, `Fails.of_right`).
-/

universe u v

namespace Leda.Lib

/-- How a computation ended, and what it had done. -/
structure Traced (W : Type u) (α : Type v) where
  val : Xfer α
  trace : List W

namespace Traced

variable {W : Type u} {α β : Type v} {p : W → Prop} {post : α → Prop} {post' : β → Prop}
  {x : Traced W α} {f : α → Traced W β} {a : α} {w : W}

instance : Monad (Traced W) where
  pure a := ⟨.ok a, []⟩
  bind x f :=
    match x with
    | ⟨.ok a, t⟩ => ⟨(f a).val, t ++ (f a).trace⟩
    | ⟨.raised m, t⟩ => ⟨.raised m, t⟩
    | ⟨.crash, t⟩ => ⟨.crash, t⟩

/-- Do one thing. -/
def step (w : W) (a : α) : Traced W α := ⟨.ok a, [w]⟩

/-- A computation that does nothing of interest. -/
def lift (x : Xfer α) : Traced W α := ⟨x, []⟩

@[simp] theorem val_pure (a : α) : (pure a : Traced W α).val = .ok a := rfl

@[simp] theorem val_lift (x : Xfer α) : (lift x : Traced W α).val = x := rfl

@[simp] theorem val_step (w : W) (a : α) : (step w a).val = .ok a := rfl

theorem bind_of_ok (h : x.val = .ok a) :
    x >>= f = ⟨(f a).val, x.trace ++ (f a).trace⟩ := by
  obtain ⟨val, t⟩ := x
  cases h
  rfl

@[simp] theorem val_bind (x : Traced W α) (f : α → Traced W β) :
    (x >>= f).val = x.val >>= fun a ↦ (f a).val := by
  obtain ⟨_ | _ | _, t⟩ := x <;> rfl

/-- **A contract.** -/
structure Ensures (p : W → Prop) (x : Traced W α) (post : α → Prop) : Prop where
  trace : ∀ w ∈ x.trace, p w
  noCrash : x.val ≠ .crash
  value : ∀ a, x.val = .ok a → post a

/-- Something was done that should not, or the computation crashed. -/
def Fails (p : W → Prop) (x : Traced W α) : Prop := (∃ w ∈ x.trace, ¬ p w) ∨ x.val = .crash

theorem not_fails_iff : ¬ Fails p x ↔ (∀ w ∈ x.trace, p w) ∧ x.val ≠ .crash := by
  simp [Fails, not_or]

namespace Ensures

theorem not_fails (h : Ensures p x post) : ¬ Fails p x :=
  not_fails_iff.2 ⟨h.trace, h.noCrash⟩

protected theorem pure (h : post a) : Ensures p (pure a : Traced W α) post where
  trace _ hw := by cases hw
  noCrash hc := by cases hc
  value b hb := by
    cases hb
    exact h

theorem step (hw : p w) (h : post a) : Ensures p (step w a) post where
  trace v hv := by
    obtain rfl := List.mem_singleton.1 hv
    exact hw
  noCrash hc := by cases hc
  value b hb := by
    cases hb
    exact h

theorem raised (m : String) : Ensures p (lift (.raised m) : Traced W α) post where
  trace _ hw := by cases hw
  noCrash hc := by cases hc
  value b hb := by cases hb

theorem lift {y : Xfer α} (hc : y ≠ .crash) (h : ∀ a, y = .ok a → post a) :
    Ensures p (lift y : Traced W α) post where
  trace _ hw := by cases hw
  noCrash := hc
  value := h

/-- One part after another. -/
theorem bind (hx : Ensures p x post) (hf : ∀ a, x.val = .ok a → post a → Ensures p (f a) post') :
    Ensures p (x >>= f) post' := by
  obtain ⟨val, t⟩ := x
  cases val with
  | ok a =>
      have ha := hf a rfl (hx.value a rfl)
      refine ⟨fun w hw ↦ ?_, ha.noCrash, ha.value⟩
      rcases List.mem_append.1 hw with hw | hw
      · exact hx.trace w hw
      · exact ha.trace w hw
  | raised m =>
      refine ⟨hx.trace, fun hc ↦ ?_, fun b hb ↦ ?_⟩
      · cases hc
      · cases hb
  | crash => exact absurd rfl hx.noCrash

theorem mono {q : α → Prop} (hx : Ensures p x post) (h : ∀ a, post a → q a) : Ensures p x q :=
  ⟨hx.trace, hx.noCrash, fun a ha ↦ h a (hx.value a ha)⟩

end Ensures

namespace Fails

theorem crash : Fails p (lift .crash : Traced W α) := .inr rfl

theorem step (hw : ¬ p w) : Fails p (step w a) := .inl ⟨w, List.mem_singleton_self w, hw⟩

/-- The first part fails. -/
theorem of_left (hx : Fails p x) : Fails p (x >>= f) := by
  obtain ⟨val, t⟩ := x
  cases val with
  | ok a =>
      rcases hx with ⟨w, hw, hp⟩ | hc
      · exact .inl ⟨w, List.mem_append_left _ hw, hp⟩
      · cases hc
  | raised m =>
      rcases hx with hx | hc
      · exact .inl hx
      · cases hc
  | crash => exact .inr rfl

/-- The second part is reached, and fails. -/
theorem of_right (hx : x.val = .ok a) (hf : Fails p (f a)) : Fails p (x >>= f) := by
  rw [bind_of_ok hx]
  rcases hf with ⟨w, hw, hp⟩ | hc
  · exact .inl ⟨w, List.mem_append_right _ hw, hp⟩
  · exact .inr hc

end Fails

end Traced

end Leda.Lib
