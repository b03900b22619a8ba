import Leda.Graph.Construct

/-!
# The start stage

A start stage is the consumer of a connector without a producer whose port is `start`.
`new_graph` makes such a connector, `set_start` looks for it to change its consumer, and
`graph:send` looks for it to send to its consumer.  Both look among `connectors()`.  But
that is the list of the connectors that have a producer: they never find it
(`findStart_eq_none`).

So `graph:send` raises an error on every graph (`send_eq_error`), and `set_start` always
makes another connector: after `n` calls there are `n` more of them
(`length_startConnectors`), and the former start stages are still stages of the graph
(`mem_stages_setStarts`).
-/

namespace Leda.Graph.Draft

open List

variable {S : Type}

/-- `c.producer == nil and c.port=='start'` -/
def isStartConnector (g : Draft S) (c : Nat) : Bool :=
  g.objects[c]?.any fun o ↦ o.producer.isNone && o.port = startKey

/-- The loop of `set_start` and `send` over `g:connectors()`. -/
def findStart (g : Draft S) : Option Nat := g.connectors.find? g.isStartConnector

/-- `index.set_start` -/
def setStart (g : Draft S) (s : S) : Except String (Draft S) :=
  match g.findStart with
  | some c => .ok { g with objects := g.objects.modify c fun o ↦ { o with consumer := s } }
  | none => do
    let o ← newConnector none startKey s none
    return { g.addNew o with start := some s }

/-- One call after the other. -/
def setStarts (g : Draft S) : List S → Except String (Draft S)
  | [] => .ok g
  | s :: ss => do
    let g ← g.setStart s
    g.setStarts ss

/-- The arguments of a send. -/
abbrev Args := List Lua.Value

/-- `index.send`, on the pending lists of the stages: it returns them with `true`, or raises an
error. -/
def send [DecidableEq S] (g : Draft S) (tostring : String) (pending : S → List Args) (args : Args) :
    Except String ((S → List Args) × Bool) :=
  match g.findStart.bind fun c ↦ g.objects[c]? with
  | some o => .ok (Function.update pending o.consumer (pending o.consumer ++ [args]), true)
  | none => .error ("Start stage not defined for graph '" ++ tostring ++ "'")

/-- The start connectors of a graph. -/
def startConnectors (g : Draft S) : List Nat := g.conns.filter g.isStartConnector

/-- **What `set_start` and `send` are for**: after these calls, of which the last was for the
stage `s`, the graph has one start connector, to this stage; a stage that was only the start
is a stage no longer; and what is sent to the graph is pending at the stage. -/
structure StartWorks [DecidableEq S] (g : Draft S) (calls : List S) (g' : Draft S) (s : S) :
    Prop where
  one : ∃ c o, g'.startConnectors = [c] ∧ g'.objects[c]? = some o ∧ o.consumer = s
  former : ∀ f ∈ calls, f ≠ s → f ∉ g.stages → f ∉ g'.stages
  sends : ∀ (tostring : String) (pending : S → List Args) (args : Args),
    g'.send tostring pending args =
      .ok (Function.update pending s (pending s ++ [args]), true)

section

variable {g g' : Draft S} {s : S} {calls : List S} {c : Nat}

/-- **The start connector is not found**, since it has no producer. -/
theorem findStart_eq_none : g.findStart = none := by
  rw [findStart, find?_eq_none]
  intro c hc hstart
  obtain ⟨-, o, s, ho, hp⟩ := mem_connectors.1 hc
  rw [isStartConnector, ho] at hstart
  simp [hp] at hstart

/-- **`graph:send` raises an error on every graph.** -/
theorem send_eq_error [DecidableEq S] (tostring : String) (pending : S → List Args) (args : Args) :
    g.send tostring pending args =
      .error ("Start stage not defined for graph '" ++ tostring ++ "'") := by
  rw [send, findStart_eq_none]
  rfl

/-- `set_start` makes another connector. -/
theorem setStart_eq : g.setStart s =
    .ok { g.addNew ⟨⟨"decoupled", none, s⟩, startKey⟩ with start := some s } := by
  rw [setStart, findStart_eq_none, newConnector_none]
  rfl

theorem setStarts_isOk (calls : List S) : ∃ g', g.setStarts calls = .ok g' := by
  induction calls generalizing g with
  | nil => exact ⟨g, rfl⟩
  | cons s ss ih =>
      obtain ⟨g', hg'⟩ := ih (g := { g.addNew ⟨⟨"decoupled", none, s⟩, startKey⟩ with
        start := some s })
      exact ⟨g', by rw [setStarts, setStart_eq]; exact hg'⟩

/-- The keys of `conns` are connector objects. -/
def Closed (g : Draft S) : Prop := ∀ c ∈ g.conns, c < g.objects.length

theorem closed_setStart (h : g.Closed) (hs : g.setStart s = .ok g') : g'.Closed := by
  rw [setStart_eq] at hs
  cases hs
  intro c hc
  change c < (g.objects ++ [_]).length
  rw [length_append, length_singleton]
  rcases mem_insert_iff.1 hc with rfl | hc
  · exact Nat.lt_succ_self _
  · exact Nat.lt_succ_of_lt (h c hc)

/-- Every call adds a start connector, and takes none away. -/
theorem startConnectors_setStart (h : g.Closed) (hs : g.setStart s = .ok g') :
    g'.startConnectors = g.objects.length :: g.startConnectors := by
  rw [setStart_eq] at hs
  cases hs
  have hnot : g.objects.length ∉ g.conns := fun hm ↦ Nat.lt_irrefl _ (h _ hm)
  have hold : ∀ c ∈ g.conns, isStartConnector
      { g.addNew ⟨⟨"decoupled", none, s⟩, startKey⟩ with start := some s } c =
        g.isStartConnector c := by
    intro c hc
    change ((g.objects ++ [_])[c]?).any _ = _
    rw [getElem?_append_left (h c hc)]
    rfl
  change (g.conns.insert g.objects.length).filter _ = _
  rw [insert_of_not_mem hnot, filter_cons_of_pos, filter_congr hold]
  · rfl
  · change ((g.objects ++ [_])[g.objects.length]?).any _ = true
    rw [getElem?_concat_length]
    simp

/-- **There is a start connector for every call.** -/
theorem length_startConnectors (h : g.Closed) (hs : g.setStarts calls = .ok g') :
    g'.startConnectors.length = g.startConnectors.length + calls.length := by
  induction calls generalizing g with
  | nil =>
      cases hs
      rfl
  | cons s ss ih =>
      rw [setStarts, setStart_eq] at hs
      have hstep := startConnectors_setStart h (setStart_eq (s := s))
      rw [ih (closed_setStart h setStart_eq) hs, hstep, length_cons, length_cons]
      omega

/-- **A stage that was the start stays a stage of the graph.** -/
theorem mem_stages_setStarts (h : g.Closed) (hs : g.setStarts calls = .ok g') {f : S}
    (hf : f ∈ calls ∨ f ∈ g.stages) : f ∈ g'.stages := by
  induction calls generalizing g with
  | nil =>
      cases hs
      exact hf.resolve_left (by simp)
  | cons s ss ih =>
      rw [setStarts, setStart_eq] at hs
      refine ih (closed_setStart h setStart_eq) hs ?_
      rcases hf with hf | hf
      · rcases mem_cons.1 hf with rfl | hf
        · refine .inr (mem_stages.2 ⟨g.objects.length, mem_insert_iff.2 (.inl rfl), _,
            getElem?_concat_length, .inr rfl⟩)
        · exact .inl hf
      · obtain ⟨c, hc, o, ho, hends⟩ := mem_stages.1 hf
        refine .inr (mem_stages.2 ⟨c, mem_insert_iff.2 (.inr hc), o, ?_, hends⟩)
        change (g.objects ++ [_])[c]? = some o
        rwa [getElem?_append_left (h c hc)]

/-- **On no graph, and after no calls, do `set_start` and `send` work together.** -/
theorem not_startWorks [DecidableEq S] (g : Draft S) (calls : List S) (s : S) :
    ¬ ∃ g', g.setStarts calls = .ok g' ∧ StartWorks g calls g' s := by
  rintro ⟨g', -, hw⟩
  have hsend := hw.sends "" (fun _ ↦ []) []
  rw [send_eq_error] at hsend
  cases hsend

end

/-- A graph with one stage is sent to, after `set_start`. -/
theorem not_startWorks_one :
    (newGraph (fun _ ↦ []) (fun _ ↦ none) inOrder [Spec.stage 0]).toOption.isSome ∧
    ¬ ∃ g g', newGraph (fun _ ↦ []) (fun _ ↦ none) inOrder [Spec.stage 0] = .ok g ∧
      g.setStarts [0] = .ok g' ∧ StartWorks g [0] g' 0 := by
  refine ⟨rfl, ?_⟩
  rintro ⟨g, g', -, -, hw⟩
  have hsend := hw.sends "" (fun _ ↦ []) []
  rw [send_eq_error] at hsend
  cases hsend

end Leda.Graph.Draft
