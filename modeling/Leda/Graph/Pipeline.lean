import Leda.Graph.Construct
import Leda.Graph.Map
import Leda.Graph.Partition
import Leda.Lib.Bytes

/-!
# Linear pipelines

`utils.linear_pipeline` makes a stage of each of its arguments and connects each one to the next.
What it makes of a stage is a copy, so a stage may be passed several times.  The first stage is
entered as the field `start` of the graph.

A graph has the stages that its connectors lead to or come from, and the first stage comes in with
the first connector.  So a pipeline of one stage is a graph without stages: `set_start` would add
a connector for it, the field does not, and `run` finds the graph empty.  For two or more arguments
the loop makes the chain (`loop_eq`), and all that is left to the arguments is whether their `bind`
functions return (`builds_iff`).
-/

namespace Leda.Graph.Pipeline

open Leda.Lua Leda.Lib
open List hiding Disjoint disjoint_comm

/-! ## Stages -/

/-- The table of a stage.  Functions are references. -/
structure StageTable where
  handler : Nat
  init : Option Nat := none
  /-- `s.bind`, if it is a function. -/
  bind : Option Nat := none
  name : Option String := none
  serial : Value := .nil
  stateful : Value := .nil
  autostart : Value := .nil
  /-- All other fields, those of the user and the entries of the array among them. -/
  others : List (Value × Value) := []
  pending : List (List Value) := []
deriving DecidableEq

/-- `a or b` -/
def orValue (a b : Value) : Value := if a = .nil ∨ a = .boolean false then b else a

/-- The stages that there are, by reference. -/
abbrev Stages := List StageTable

/-- A function or a stage. -/
inductive Item (before : Stages)
  | function (f : Nat)
  | stage (s : Fin before.length)
deriving DecidableEq

/-- An argument of `linear_pipeline`. -/
inductive Arg (before : Stages)
  | item (v : Item before)
  | nil
  | other (type : String)

/-- What the pipeline does not know: addresses of tables, and how the calls of `bind` functions
end, with the stage and its output ports. -/
structure Env where
  /-- `kernel.to_pointer` -/
  pointer : Nat → String
  bind : Nat → Nat → List (Port × Nat) → Except String Unit
  order : Draft.Order

/-- `stage.__tostring` -/
def tostring (env : Env) (tables : Stages) (s : Nat) : String :=
  match tables[s]?.bind StageTable.name with
  | some name => s!"{name} ({env.pointer s})"
  | none => s!"Stage ({env.pointer s})"

variable {before : Stages}

/-- The fields that `new_stage_t` starts from: of a stage it takes them all, of a function there is
the handler. -/
def Item.fields : Item before → StageTable
  | .function f => { handler := f }
  | .stage s => before[s]

/-- `new_stage_t`, for the new table `s`. -/
def newStage (env : Env) (s : Nat) (v : Item before) : StageTable :=
  { v.fields with
    serial := orValue v.fields.serial v.fields.stateful
    pending := []
    name := some (v.fields.name.getD s!"Stage ({env.pointer s})") }

/-! ## The loop -/

/-- The stages, the graph, and `last_s`. -/
structure State where
  tables : Stages
  graph : Draft Nat
  last : Option Nat

/-- The loop over `ipairs(arg)`, from the place `i` on. -/
def loop (env : Env) : Nat → List (Arg before) → State → Except String State
  | _, [], st => .ok st
  | _, .nil :: _, st => .ok st
  | i, .other _ :: _, _ => .error s!"Argument #{i} must be a function or a stage"
  | i, .item v :: rest, ⟨tables, g, last⟩ =>
    let stage := tables.length
    let tables := tables ++ [newStage env stage v]
    match last with
    | some head => do
      let (g, c) ← g.connect ⟨head, none, stage, none⟩
      loop env (i + 1) rest ⟨tables, g.add c, some stage⟩
    | none => loop env (i + 1) rest ⟨tables, { g with start := some stage }, some stage⟩

/-- `utils.linear_pipeline`: the stages that there are then, and the graph. -/
def linearPipeline (env : Env) (args : List (Arg before)) : Except String (Stages × Draft Nat) := do
  let g ← Draft.newGraph (fun s ↦ ascii (tostring env before s))
    (fun s ↦ (before[s]?.bind StageTable.name).map ascii) env.order [.table .nil]
  let st ← loop env 1 args ⟨before, g, none⟩
  return (st.tables, st.graph)

/-! ## The graph that is run -/

/-- The draft as a graph, with the fields of its stages. -/
def toGraph (env : Env) (tables : Stages) (g : Draft Nat) : Graph Nat Nat Port where
  conns := g.conns
  conn c := (g.objects[c]?.map PortConnector.toConnector).getD ⟨"decoupled", none, 0⟩
  outputs s := g.ports s
  cluster := none
  tostring := tostring env tables
  name s := ((tables[s]?.bind StageTable.name).getD "nil")
  bind s := (tables[s]?.bind StageTable.bind).map fun f ↦ env.bind f s (g.ports s)

/-- The check of `index.run`. -/
def checkStages (g : Graph Nat Nat Port) : Except String Unit :=
  assert (decide (0 < g.stages.length)) "Error: the graph is empty."

/-- `g:part(g:all())` -/
def partAll (g : Graph Nat Nat Port) : Except String (Graph Nat Nat Port) :=
  g.part (fun _ ↦ g.all) [.cluster 0]

/-- The clusters before they are mapped; those of `g:all()` have no processes. -/
def mapState {N : Type} (processes : List (Map.Proc N)) (g : Graph Nat Nat Port) :
    Map.State (Cluster Nat) N :=
  ⟨processes, fun _ ↦ [], g.cluster⟩

/-! ## What the pipeline should be -/

/-- A copy of a function or a stage: it has the fields of the stage, is serial if the stage is
serial or stateful, has a name, and no events are pending for it. -/
structure IsCopy (v : Item before) (t : StageTable) : Prop where
  handler : t.handler = v.fields.handler
  init : t.init = v.fields.init
  bind : t.bind = v.fields.bind
  named : t.name.isSome
  name : ∀ n, v.fields.name = some n → t.name = some n
  serial : t.serial = orValue v.fields.serial v.fields.stateful
  stateful : t.stateful = v.fields.stateful
  autostart : t.autostart = v.fields.autostart
  others : t.others = v.fields.others
  pending : t.pending = []

/-- Any mapping to one process succeeds. -/
def Mappable (g : Graph Nat Nat Port) : Prop :=
  ∀ {N : Type} [DecidableEq N] (env : Map.Env (Cluster Nat) Nat N) (processes : List (Map.Proc N))
    (address : List UInt8) (visit : Map.State.Visit (Cluster Nat)),
    ((mapState processes g).map env [.string address] visit).2 = .ok ()

/-- **The chain of these items**, with these stages and connectors: the stages are new copies of
the items, the connectors lead from each stage to the next, the first stage is the start, and the
graph can be run. -/
structure Builds (env : Env) (vs : List (Item before)) (tables : Stages) (g : Draft Nat)
    (ss cs : List Nat) : Prop where
  copies : Forall₂ (fun v s ↦ before.length ≤ s ∧ ∃ t, tables[s]? = some t ∧ IsCopy v t) vs ss
  distinct : ss.Nodup
  stages : ∀ s, s ∈ g.stages ↔ s ∈ ss
  connectors : g.connectors ~ cs
  count : cs.length = vs.length - 1
  unique : cs.Nodup
  leads : ∀ k c, cs[k]? = some c → ∃ s s' o, ss[k]? = some s ∧ ss[k + 1]? = some s' ∧
    g.connector? s .one = some (c, o) ∧ o.producer = some s ∧ o.consumer = s'
  start : g.start = ss.head?
  nonempty : checkStages (toGraph env tables g) = .ok ()
  runs : ∃ g', partAll (toGraph env tables g) = .ok g' ∧ Mappable g' ∧ g'.verify = .ok true

/-- The connectors at the output ports of the `k`-th stage of `n`. -/
def outputsOf (n k : Nat) : List (Port × Nat) := if k + 1 < n then [(.one, k)] else []

/-- The `bind` functions of the items return, when they are called with the copies and their
output ports. -/
def BindsReturn (env : Env) (vs : List (Item before)) : Prop :=
  ∀ k v f, vs[k]? = some v → v.fields.bind = some f →
    env.bind f (before.length + k) (outputsOf vs.length k) = .ok ()

/-! ## The chain -/

/-- The graph with `m` connectors, from the stage `b` on. -/
def chain (b m : Nat) : Draft Nat where
  objects := (range m).map fun k ↦ ⟨⟨"decoupled", some (b + k), b + k + 1⟩, .one⟩
  outputs := (range m).map fun k ↦ (b + k, [(.one, k)])
  conns := (range m).reverse
  start := some b

section Chain

variable {b m s c k : Nat}

/-- The outputs of the stages of a chain. -/
theorem ports_chain : (chain b m).ports s =
    if b ≤ s ∧ s < b + m then [(.one, s - b)] else [] := by
  have hlookup : (chain b m).outputs.lookup s =
      if b ≤ s ∧ s < b + m then some [(.one, s - b)] else none := by
    induction m with
    | zero => simp [chain]
    | succ m ih =>
        change ((range (m + 1)).map _).lookup s = _
        rw [range_succ, map_append, lookup_append]
        change ((chain b m).outputs.lookup s).or _ = _
        rw [ih]
        by_cases hs : s = b + m
        · subst hs
          simp
        · have hne : (s == b + m) = false := beq_false_of_ne hs
          have hiff : b ≤ s ∧ s < b + (m + 1) ↔ b ≤ s ∧ s < b + m := by omega
          rw [map_singleton, lookup_cons, hne]
          simp only [hiff]
          split <;> rfl
  rw [Draft.ports, hlookup]
  split <;> rfl

theorem getElem?_chain (hk : k < m) : (chain b m).objects[k]? =
    some ⟨⟨"decoupled", some (b + k), b + k + 1⟩, .one⟩ := by
  simp [chain, hk]

theorem length_objects_chain (b m : Nat) : (chain b m).objects.length = m := by simp [chain]

theorem objects_chain_succ (b m : Nat) : (chain b (m + 1)).objects =
    (chain b m).objects ++ [⟨⟨"decoupled", some (b + m), b + m + 1⟩, .one⟩] := by
  change map _ (range (m + 1)) = map _ (range m) ++ _
  rw [range_succ, map_append]
  rfl

theorem conns_chain_succ (b m : Nat) :
    (chain b (m + 1)).conns = (chain b m).conns.insert m := by
  change (range (m + 1)).reverse = ((range m).reverse).insert m
  rw [insert_of_not_mem (by simp), range_succ, reverse_append]
  rfl

/-- The last stage of a chain has no outputs, so its entry is a new one. -/
theorem outputs_chain_succ (b m : Nat) :
    (chain b (m + 1)).outputs = (chain b m).setPorts (b + m) [(.one, m)] := by
  change map _ (range (m + 1)) = (filter _ (chain b m).outputs) ++ _
  rw [range_succ, map_append, filter_eq_self.2]
  · rfl
  · intro e he
    obtain ⟨k, hk, rfl⟩ := mem_map.1 he
    have hlt := mem_range.1 hk
    exact decide_eq_true (by dsimp only; omega)

/-- **The next stage is connected.** -/
theorem connect_chain (b m : Nat) : ∃ g, (chain b m).connect ⟨b + m, none, b + m + 1, none⟩ =
    .ok (g, m) ∧ g.add m = chain b (m + 1) := by
  refine ⟨{ chain b m with
    objects := (chain b (m + 1)).objects
    outputs := (chain b (m + 1)).outputs }, ?_, ?_⟩
  · have hports : (chain b m).ports (b + m) = [] := by
      rw [ports_chain, if_neg (by omega)]
    have hnew : newConnector (some (b + m))
        (ConnectCall.port ⟨b + m, none, b + m + 1, none⟩) (b + m + 1) none =
          .ok ⟨⟨"decoupled", some (b + m), b + m + 1⟩, .one⟩ := rfl
    rw [Draft.connect]
    simp only [Draft.output?, hports]
    rw [find?_nil, Option.map_none, hnew, objects_chain_succ, outputs_chain_succ]
    change Except.ok (({ chain b m with
      objects := (chain b m).objects ++ [_]
      outputs := (chain b m).setPorts (b + m) [(.one, (chain b m).objects.length)] } : Draft Nat),
      (chain b m).objects.length) = _
    rw [length_objects_chain]
  · rw [Draft.add, ← conns_chain_succ]
    rfl

theorem newGraph_eq (tostring : Nat → List UInt8) (name : Nat → Option (List UInt8))
    (order : Draft.Order) : Draft.newGraph tostring name order [.table .nil] = .ok .empty := by
  have hvisit : ∀ {α : Type}, order.visit ([] : List α) = [] :=
    fun {α} ↦ perm_nil.1 (order.visit_perm ([] : List α))
  have hfield : ∀ title f, Draft.addField tostring order title .empty f = .ok .empty := by
    intro title f
    cases f with
    | conns =>
        change Draft.addItem tostring .empty (.port (portOf "conns")) (.table (.ofList
          ((order.visit []).map _))) = _
        rw [hvisit]
        rfl
    | outputs =>
        change Draft.addItem tostring .empty (.port (portOf "outputs")) (.table (.ofList
          ((order.visit []).map _))) = _
        rw [hvisit]
        rfl
    | name => rfl
  have hfields : ∀ title fs, Draft.addFields tostring order title .empty fs = .ok .empty := by
    intro title fs
    induction fs with
    | nil => rfl
    | cons f fs ih =>
        rw [Draft.addFields, hfield]
        exact ih
  exact hfields _ _

end Chain

section Loop

variable {env : Env} {b m s k : Nat} {tables : Stages} {v : Item before} {vs : List (Item before)}

/-- The copies of some items, from the table `s` on. -/
def copies (env : Env) : Nat → List (Item before) → Stages
  | _, [] => []
  | s, v :: vs => newStage env s v :: copies env (s + 1) vs

theorem getElem?_copies (s k : Nat) (vs : List (Item before)) :
    (copies env s vs)[k]? = vs[k]?.map (newStage env (s + k)) := by
  induction vs generalizing s k with
  | nil => rfl
  | cons v vs ih =>
      cases k with
      | zero => rfl
      | succ k => rw [copies, getElem?_cons_succ, getElem?_cons_succ, ih, Nat.add_right_comm,
          Nat.add_assoc]

theorem isCopy_newStage (env : Env) (s : Nat) (v : Item before) : IsCopy v (newStage env s v) where
  handler := rfl
  init := rfl
  bind := rfl
  named := rfl
  name n hn := by simp [newStage, hn]
  serial := rfl
  stateful := rfl
  autostart := rfl
  others := rfl
  pending := rfl

/-- **The loop makes a chain of the items.** -/
theorem loop_eq (env : Env) (vs : List (Item before)) (tables : Stages) (i m : Nat)
    (ht : tables.length = b + m + 1) :
    loop env i (vs.map .item) ⟨tables, chain b m, some (b + m)⟩ =
      .ok ⟨tables ++ copies env (b + m + 1) vs, chain b (m + vs.length),
        some (b + (m + vs.length))⟩ := by
  induction vs generalizing tables i m with
  | nil => simp [loop, copies]
  | cons v vs ih =>
      obtain ⟨g, hconn, hadd⟩ := connect_chain b m
      have hstep := ih (tables ++ [newStage env (b + m + 1) v]) (i + 1) (m + 1)
        (by simp [ht]; omega)
      rw [map_cons, loop]
      simp only [ht]
      rw [hconn]
      change loop env (i + 1) (vs.map .item) ⟨_, g.add m, some (b + m + 1)⟩ = _
      rw [hadd]
      refine hstep.trans ?_
      rw [append_assoc, singleton_append, length_cons, Nat.add_assoc m, Nat.add_comm 1]
      rfl

/-- The graph of a pipeline of so many stages. -/
def graphOf (b : Nat) : Nat → Draft Nat
  | 0 => .empty
  | n + 1 => chain b n

/-- **What `linear_pipeline` returns.** -/
theorem linearPipeline_eq (env : Env) (vs : List (Item before)) :
    linearPipeline env (vs.map .item) =
      .ok (before ++ copies env before.length vs, graphOf before.length vs.length) := by
  rw [linearPipeline, newGraph_eq]
  cases vs with
  | nil => simp [loop, copies, graphOf]; rfl
  | cons v vs =>
      have hloop := loop_eq env (b := before.length) vs
        (before ++ [newStage env before.length v]) 2 0 (by simp)
      change (loop env 2 (vs.map .item) ⟨before ++ [newStage env before.length v],
        chain before.length 0, some before.length⟩ >>= _) = _
      rw [Nat.add_zero] at hloop
      rw [hloop, append_assoc, singleton_append, Nat.zero_add]
      rfl

end Loop

/-! ## Mapping one cluster -/

section Mapping

open Map Map.State

variable {C S N : Type} [DecidableEq C] [DecidableEq N] {env : Map.Env C S N} {σ : Map.State C N}
variable {c : C} {d : Map.Proc N} {address : List UInt8} {visit : Visit C}

omit [DecidableEq C] in
theorem addr_findProcess : (σ.findProcess d).1.addr = σ.addr := by
  unfold findProcess
  split <;> rfl

/-- An address is set. -/
theorem setProcess_string (env : Map.Env C S N) (σ : Map.State C N) (c : C)
    (address : List UInt8) :
    ∃ σ' i, σ.setProcess env c (.string address) none = (σ', .ok ()) ∧ σ'.addr c = [i] := by
  obtain ⟨h, port, ha⟩ : ∃ h port, State.address env (.string address) none =
      (.string h, port) := by
    unfold State.address
    split
    · split
      · exact ⟨_, _, rfl⟩
      · exact ⟨_, _, rfl⟩
    · rename_i hno
      exact absurd rfl (hno address)
  rw [setProcess, addProcess, ha]
  simp only [Function.update_self, length_nil, getProcess]
  rw [if_neg (by simp)]
  refine ⟨_, (findProcess { σ with addr := Function.update σ.addr c [] }
    ⟨(env.toip h).getD h, port⟩).2, rfl, ?_⟩
  simp only [Function.update_self, addr_findProcess, nil_append]

/-- **One cluster can be mapped to one address.** -/
theorem map_one (hc : σ.cluster = some [c]) :
    (σ.map env [.string address] visit).2 = .ok () := by
  obtain ⟨σ', i, hset, haddr⟩ := setProcess_string env σ c address
  have hvisit : visit.order [c] = [c] := perm_singleton.1 (visit.perm _)
  have hargs : mapArgs env [c] 1 [.string address] σ = (σ', .ok ()) := by
    simp only [mapArgs, mapProcs, if_true, hset]
  have hcheck : σ'.check env [c] [] = .ok () := by
    simp [check, checkAddr, haddr]
    rfl
  rw [Map.State.map, hc]
  simp only [hargs]
  rw [show [c].dedup = [c] from rfl, hvisit, hcheck]

end Mapping

/-! ## The graph of a chain -/

section Graphs

variable {env : Env} {b m s k c : Nat} {tables : Stages} {v : Item before} {vs : List (Item before)}
variable {g g' : Graph Nat Nat Port}

/-- If no connector ties its ends, all stages may be one cluster. -/
theorem legal_all {n : Nat} (h : ∀ c ∈ g.conns, (g.conn c).type = "decoupled") :
    g.Legal [⟨.given n, g.all⟩] where
  disjoint := pairwise_singleton _ _
  covers := by
    ext s
    simp [Cluster.stageSet, Graph.stageSet]
  together := by
    rintro p q ⟨c, hc, ht, -⟩
    exact absurd (h c hc) ht

/-- **What `part(g:all())` returns** if no connector ties its ends. -/
theorem partAll_eq_ok (hm : g.OutputsMatch) (h : ∀ c ∈ g.conns, (g.conn c).type = "decoupled") :
    partAll g = .ok g' ↔ g.BindsReturn ∧ g' = { g with cluster := some [⟨.given 0, g.all⟩] } := by
  rw [partAll, part_eq_ok hm]
  exact ⟨fun ⟨hb, _, hg⟩ ↦ ⟨hb, hg⟩, fun ⟨hb, hg⟩ ↦ ⟨hb, legal_all h, hg⟩⟩

theorem verify_all (h : ∀ c ∈ g.conns, (g.conn c).type = "decoupled") :
    Graph.verify { g with cluster := some [⟨.given 0, g.all⟩] } = .ok true :=
  verify_eq_ok.2 (IsPartition.dedup (legal_all (n := 0) h))

/-- One cluster can be mapped to any one process. -/
theorem mappable_all (g : Graph Nat Nat Port) :
    Mappable { g with cluster := some [⟨.given 0, g.all⟩] } :=
  fun _ _ _ _ ↦ map_one rfl

theorem mem_conns_chain : c ∈ (chain b m).conns ↔ c < m := by simp [chain]

theorem conn_chain (hc : c < m) :
    (toGraph env tables (chain b m)).conn c = ⟨"decoupled", some (b + c), b + c + 1⟩ := by
  simp only [toGraph]
  rw [getElem?_chain hc]
  rfl

/-- The first port of a stage of the chain leads to the next one. -/
theorem connector?_chain (hk : k < m) : (chain b m).connector? (b + k) .one =
    some (k, ⟨⟨"decoupled", some (b + k), b + k + 1⟩, .one⟩) := by
  have hout : (chain b m).output? (b + k) .one = some k := by
    rw [Draft.output?, ports_chain, if_pos (by omega), Nat.add_sub_cancel_left]
    rfl
  rw [Draft.connector?, hout, Option.bind_some, getElem?_chain hk]
  rfl

theorem decoupled_chain : ∀ c ∈ (toGraph env tables (chain b m)).conns,
    ((toGraph env tables (chain b m)).conn c).type = "decoupled" := by
  intro c hc
  rw [conn_chain ((mem_conns_chain (b := b)).1 hc)]

theorem outputsMatch_chain : (toGraph env tables (chain b m)).OutputsMatch := by
  intro s c
  change (∃ key, (key, c) ∈ (chain b m).ports s) ↔ c ∈ (chain b m).conns ∧ _
  rw [ports_chain, mem_conns_chain]
  constructor
  · rintro ⟨key, hkey⟩
    split at hkey
    · rename_i hs
      obtain ⟨rfl, rfl⟩ := Prod.mk.inj (mem_singleton.1 hkey)
      refine ⟨by omega, ?_⟩
      rw [conn_chain (by omega), Option.some_inj]
      omega
    · cases hkey
  · rintro ⟨hc, hp⟩
    rw [conn_chain hc, Option.some_inj] at hp
    refine ⟨.one, ?_⟩
    rw [if_pos (by omega), mem_singleton]
    congr
    omega

/-- The stages of a chain are those that it connects. -/
theorem mem_stages_chain : s ∈ (chain b m).stages ↔ 0 < m ∧ b ≤ s ∧ s ≤ b + m := by
  rw [Draft.mem_stages]
  constructor
  · rintro ⟨c, hc, o, ho, hs⟩
    have hlt := mem_conns_chain.1 hc
    rw [getElem?_chain hlt] at ho
    obtain rfl := Option.some.inj ho
    simp only [Option.some_inj] at hs
    omega
  · rintro ⟨hm, hb, hs⟩
    -- the first stage is a producer, and each other one a consumer
    by_cases heq : s = b
    · exact ⟨0, mem_conns_chain.2 hm, _, getElem?_chain hm, .inl (by rw [heq, Nat.add_zero])⟩
    · have hlt : s - b - 1 < m := by omega
      refine ⟨s - b - 1, mem_conns_chain.2 hlt, _, getElem?_chain hlt, .inr ?_⟩
      change b + (s - b - 1) + 1 = s
      omega

theorem mem_stages_toGraph (env : Env) (tables : Stages) :
    s ∈ (toGraph env tables (chain b m)).stages ↔ s ∈ (chain b m).stages := by
  rw [Draft.mem_stages, Graph.mem_stages]
  refine exists_congr fun c ↦ and_congr_right fun hc ↦ ?_
  have hlt := (mem_conns_chain (b := b)).1 hc
  rw [conn_chain hlt, getElem?_chain hlt]
  simp

/-- The stages of a pipeline are in the tables. -/
theorem getElem?_tables (env : Env) (vs : List (Item before)) (k : Nat) :
    (before ++ copies env before.length vs)[before.length + k]? =
      vs[k]?.map (newStage env (before.length + k)) := by
  rw [getElem?_append_right (by omega), Nat.add_sub_cancel_left, getElem?_copies]

/-- **What `part` asks of the `bind` functions.** -/
theorem bindsReturn_iff (hm : 0 < m) (hn : vs.length = m + 1) :
    (toGraph env (before ++ copies env before.length vs) (chain before.length m)).BindsReturn ↔
      BindsReturn env vs := by
  have hports : ∀ k, k ≤ m → (chain before.length m).ports (before.length + k) =
      outputsOf vs.length k := by
    intro k hk
    rw [ports_chain, outputsOf, hn, Nat.add_sub_cancel_left]
    simp only [Nat.le_add_right, true_and, Nat.add_lt_add_iff_left, Nat.add_lt_add_iff_right]
  constructor
  · intro h k v f hv hf
    have hk : k ≤ m := by
      have := (List.getElem?_eq_some_iff.1 hv).1
      omega
    refine h (before.length + k)
      ((mem_stages_toGraph _ _).2 (mem_stages_chain.2 ⟨hm, by omega, by omega⟩)) _ ?_
    change (((before ++ copies env before.length vs)[before.length + k]?).bind
      StageTable.bind).map _ = _
    rw [getElem?_tables, hv, hports k hk]
    simp [newStage, hf]
  · intro h s hs r hr
    obtain ⟨-, hb, hle⟩ := mem_stages_chain.1 ((mem_stages_toGraph _ _).1 hs)
    obtain ⟨k, rfl⟩ := Nat.exists_eq_add_of_le hb
    change (((before ++ copies env before.length vs)[before.length + k]?).bind
      StageTable.bind).map _ = _ at hr
    rw [getElem?_tables, hports k (by omega)] at hr
    cases hv : vs[k]? with
    | none => simp [hv] at hr
    | some v =>
        cases hf : v.fields.bind with
        | none => simp [hv, newStage, hf] at hr
        | some f =>
            rw [hv] at hr
            simp only [Option.map_some, Option.bind_some, newStage, hf, Option.some_inj] at hr
            rw [← hr]
            exact h k v f hv hf

/-- The stages of a pipeline, and its connectors. -/
theorem builds_chain (hm : 0 < m) (hn : vs.length = m + 1) (hb : BindsReturn env vs) :
    Builds env vs (before ++ copies env before.length vs) (chain before.length m)
      ((range vs.length).map fun k ↦ before.length + k) (range m) where
  copies := by
    refine forall₂_iff_get.2 ⟨by simp, fun k hk _ ↦ ?_⟩
    simp only [get_eq_getElem, getElem_map, getElem_range]
    refine ⟨Nat.le_add_right .., newStage env (before.length + k) vs[k], ?_, isCopy_newStage ..⟩
    rw [getElem?_tables, getElem?_eq_getElem hk]
    rfl
  distinct := nodup_range.map fun _ _ h ↦ Nat.add_left_cancel h
  stages s := by
    rw [mem_stages_chain, mem_map]
    constructor
    · rintro ⟨-, hb, hs⟩
      exact ⟨s - before.length, mem_range.2 (by omega), by omega⟩
    · rintro ⟨k, hk, rfl⟩
      have := mem_range.1 hk
      omega
  connectors := by
    rw [Draft.connectors, filter_eq_self.2]
    · exact reverse_perm _
    · intro c hc
      rw [getElem?_chain (mem_conns_chain.1 hc)]
      rfl
  count := by simp [hn]
  unique := nodup_range
  leads k c hc := by
    obtain ⟨hk, rfl⟩ := List.getElem?_eq_some_iff.1 hc
    have hlt : k < m := length_range (n := m) ▸ hk
    rw [getElem_range]
    have hstage : ∀ j, j < vs.length →
        ((range vs.length).map fun k ↦ before.length + k)[j]? = some (before.length + j) := by
      intro j hj
      rw [getElem?_map, getElem?_range hj]
      rfl
    exact ⟨before.length + k, before.length + k + 1, _, hstage k (by omega),
      hstage (k + 1) (by omega), connector?_chain hlt, rfl, rfl⟩
  start := by
    rw [hn, range_succ_eq_map]
    rfl
  nonempty := by
    rw [checkStages, assert_eq_ok, decide_eq_true_iff]
    exact length_pos_of_mem ((mem_stages_toGraph _ _).2
      (mem_stages_chain.2 ⟨hm, le_refl before.length, by omega⟩))
  runs := ⟨_, (partAll_eq_ok outputsMatch_chain decoupled_chain).2
    ⟨(bindsReturn_iff hm hn).2 hb, rfl⟩, mappable_all _, verify_all decoupled_chain⟩

/-- A pipeline of at most one stage is a graph without stages. -/
theorem checkStages_short (h : vs.length < 2) :
    checkStages (toGraph env tables (graphOf b vs.length)) ≠ .ok () := by
  intro hc
  rw [checkStages, assert_eq_ok, decide_eq_true_iff] at hc
  obtain ⟨s, hs⟩ := exists_mem_of_length_pos hc
  obtain h0 | h1 : vs.length = 0 ∨ vs.length = 1 := by omega
  · rw [h0] at hs
    cases hs
  · rw [h1] at hs
    have := (mem_stages_chain.1 ((mem_stages_toGraph (m := 0) _ _).1 hs)).1
    omega

/-- **`linear_pipeline` builds the chain of its arguments exactly if** there are two or more, and
their `bind` functions return. -/
theorem builds_iff (env : Env) (vs : List (Item before)) :
    (∃ tables g ss cs, linearPipeline env (vs.map .item) = .ok (tables, g) ∧
      Builds env vs tables g ss cs) ↔ 2 ≤ vs.length ∧ BindsReturn env vs := by
  rw [linearPipeline_eq]
  constructor
  · rintro ⟨tables, g, ss, cs, heq, h⟩
    obtain ⟨rfl, rfl⟩ := Prod.mk.inj (Except.ok.inj heq)
    have hlen : 2 ≤ vs.length := by
      by_contra hlt
      exact checkStages_short (by omega) h.nonempty
    obtain ⟨m, hm⟩ := Nat.exists_eq_add_of_le' (show 1 ≤ vs.length by omega)
    refine ⟨hlen, ?_⟩
    obtain ⟨g', hpart, -⟩ := h.runs
    rw [hm] at hpart
    exact (bindsReturn_iff (by omega) hm).1
      ((partAll_eq_ok outputsMatch_chain decoupled_chain).1 hpart).1
  · rintro ⟨hlen, hb⟩
    obtain ⟨m, hm⟩ := Nat.exists_eq_add_of_le' (show 1 ≤ vs.length by omega)
    have hgraph : graphOf before.length vs.length = chain before.length m := by
      rw [hm]
      rfl
    rw [hgraph]
    exact ⟨_, _, _, _, rfl, builds_chain (by omega) hm hb⟩

/-- Surroundings in which `bind` functions return. -/
def plain : Env where
  pointer _ := "0x0"
  bind _ _ _ := .ok ()
  order := Draft.inOrder

/-- **A pipeline of one function has no stage.** -/
theorem not_builds_one :
    (∃ tables g, linearPipeline plain [(.item (.function 0) : Arg [])] = .ok (tables, g) ∧
      g.stages = [] ∧ g.start = some 0 ∧
      checkStages (toGraph plain tables g) = .error "Error: the graph is empty.") ∧
    ¬ ∃ tables g ss cs, linearPipeline plain [(.item (.function 0) : Arg [])] = .ok (tables, g) ∧
      Builds plain [(.function 0 : Item [])] tables g ss cs := by
  refine ⟨⟨_, _, rfl, rfl, rfl, rfl⟩, ?_⟩
  rintro ⟨tables, g, ss, cs, heq, h⟩
  cases heq
  have hnone := h.nonempty
  cases hnone

end Graphs

end Leda.Graph.Pipeline
