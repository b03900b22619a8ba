import Mathlib.Logic.Relation

/-!
# Explorations of a graph

A depth-first traversal that skips what it has seen visits, when it finishes, everything
it could reach.  The induction behind this needs to speak about parts of the traversal,
which leave edges into nodes that are seen but not finished.  `Closed next good S X` says
that the nodes in `X` are good and that their edges lead into `X` or into `S`.  A part of
the traversal that started with `S` seen yields such an `X`; parts compose by `union`, a
node is finished by `insert`, and with nothing seen at the start `good_of_reaches` applies.
-/

universe u

namespace Leda.Lib

variable {A : Type u} {next : A → A → Prop} {good : A → Prop} {S S' X X' : A → Prop}

/-- The nodes in `X` are good and lead only into `X` and `S`. -/
def Closed (next : A → A → Prop) (good : A → Prop) (S X : A → Prop) : Prop :=
  ∀ a, X a → good a ∧ ∀ b, next a b → X b ∨ S b

namespace Closed

/-- Nothing was visited. -/
theorem empty : Closed next good S fun _ ↦ False := fun _ h ↦ h.elim

/-- One part of a traversal after another: what the second one found seen was seen before
the first one or visited by it. -/
theorem union (h : Closed next good S X) (h' : Closed next good S' X')
    (hS : ∀ b, S' b → S b ∨ X b) : Closed next good S fun a ↦ X a ∨ X' a := by
  rintro a (ha | ha)
  · obtain ⟨hg, hn⟩ := h a ha
    exact ⟨hg, fun b hb ↦ (hn b hb).imp_left .inl⟩
  · obtain ⟨hg, hn⟩ := h' a ha
    refine ⟨hg, fun b hb ↦ ?_⟩
    rcases hn b hb with hb | hb
    · exact .inl (.inr hb)
    · exact (hS b hb).symm.imp_left .inl

/-- A node is finished: its edges were followed while it counted as seen. -/
theorem insert {a : A} (h : Closed next good S' X) (hS : ∀ b, S' b → S b ∨ b = a)
    (hg : good a) (hn : ∀ b, next a b → X b ∨ S' b) :
    Closed next good S fun b ↦ X b ∨ b = a := by
  have hout : ∀ b, X b ∨ S' b → (X b ∨ b = a) ∨ S b := by
    rintro b (hb | hb)
    · exact .inl (.inl hb)
    · exact (hS b hb).symm.imp_left .inr
  rintro b (hb | rfl)
  · obtain ⟨hg, hn⟩ := h b hb
    exact ⟨hg, fun c hc ↦ hout c (hn c hc)⟩
  · exact ⟨hg, fun c hc ↦ hout c (hn c hc)⟩

/-- **A finished traversal has seen everything reachable**, and all of it is good. -/
theorem good_of_reaches (h : Closed next good (fun _ ↦ False) X) {a b : A} (ha : X a)
    (hr : Relation.ReflTransGen next a b) : good b := by
  suffices hb : X b from (h b hb).1
  induction hr with
  | refl => exact ha
  | tail _ hs ih => exact ((h _ ih).2 _ hs).resolve_right id

end Closed

end Leda.Lib
