import Leda.Lib.Numbering
import Leda.Graph.Partition
import Leda.Marshal.Encode

/-!
# The compiled graph

`build_graph_representation` compiles a graph into four arrays, of processes, clusters,
stages and connectors, that the kernel reads without the Lua state.  An object stands
in them for its id.  When a program is started, the ids are given in the order in which
`lua_next` happens to visit the objects, and kept in four tables in the graph; a graph
that has the tables already, because it was shipped here, is compiled with those ids.

The loops visit tables, each in an order of its own: a `Traversal` says in which.  A
loop is `Leda.Lib.fill`, with the entry that it makes of an object; the outputs of the
stages, which need the ids of the connectors, are added by a second loop over the
stages, `Leda.Lib.revisit`.

`Represents` says what the arrays have to be, in terms of the graph: the ids are
bijections, every slot is filled, and every number in an entry is the id of the object
that the graph has there.  `build_eq_ok` proves it of both modes.
-/

namespace Leda.Graph

open Leda.Lib Leda.Lua Leda.Marshal
open List hiding Disjoint disjoint_comm

variable {S C P : Type}

/-- The key of an output port, which `connect` wants to be a string or a number. -/
inductive Port
  | string (s : List UInt8)
  | number (d : BitVec 64)
deriving DecidableEq

/-- The key as a value. -/
def Port.toValue : Port → Value
  | string s => .string s
  | number d => .number d

/-- A process, as `get_process` makes it. -/
structure Process where
  /-- `d.host`. -/
  host : List UInt8
  /-- `d.port`. -/
  port : Int
deriving DecidableEq

/-- A string of the source, as a value. -/
def str (s : String) : Value := .string (s.toList.map fun c ↦ UInt8.ofNat c.toNat)

/-- The Lua state that runs the build: its hooks, its version, and the levels of calls it
has room for. -/
structure Machine where
  hooks : Hooks
  lua52 : Bool
  depth : Nat

/-- `lua_tolstring`, where `NULL` has length `0`; `fmt` is `lua_number2str`. -/
def tolstring (fmt : BitVec 64 → List UInt8) : Value → List UInt8
  | .string s => s
  | .number d => fmt d
  | _ => []

/-- The environment of a stage: its table, marshalled without the wrap hooks.  What the
hooks allocate meanwhile nobody refers to. -/
def Machine.encode (m : Machine) (h : Heap) (a : Nat) : Xfer (List UInt8) := do
  let (b, _) ← marEncode m.hooks m.lua52 true m.depth (.object a) h
  .ok b

/-- A mapped graph and the fields of its objects that are compiled. -/
structure Program (S C P : Type) where
  /-- The graph. -/
  graph : Graph S C Port
  /-- `g.name`. -/
  title : Value
  /-- The objects of the Lua state. -/
  heap : Heap
  /-- The table of a stage. -/
  table : S → Nat
  /-- `c.port`. -/
  port : C → Port
  /-- `c.method`. -/
  method : C → Value
  /-- `cl.name`. -/
  clusterName : Cluster S → Value
  /-- `cl.process_addr`. -/
  addr : Cluster S → List P
  /-- The process objects. -/
  process : P → Process
  /-- `g.stagesid`. -/
  stagesid : Option (Ids S)
  /-- `g.connectorsid`. -/
  connectorsid : Option (Ids C)
  /-- `g.clustersid`. -/
  clustersid : Option (Ids (Cluster S))
  /-- `g.processesid`. -/
  processesid : Option (Ids P)

/-- The four tables of ids. -/
structure Tables (S C P : Type) where
  stagesid : Ids S
  connectorsid : Ids C
  clustersid : Ids (Cluster S)
  processesid : Ids P

/-! ## The arrays -/

/-- `struct process_data`. -/
structure ProcessData where
  host : List UInt8
  port : Int
deriving DecidableEq

/-- `struct cluster_data`. -/
structure ClusterData where
  name : List UInt8
  processes : List Nat
  isLocal : Bool
deriving DecidableEq

/-- `struct stage_data`. -/
structure StageData where
  name : List UInt8
  env : List UInt8
  output : List (Port × Nat)
  serial : Bool
  cluster : Nat
deriving DecidableEq

/-- `struct connector_data`. -/
structure ConnectorData where
  name : List UInt8
  send : List UInt8
  p : Nat
  c : Nat
deriving DecidableEq

/-- `struct graph_data`. -/
structure GraphData where
  name : List UInt8
  d : List (Option ProcessData)
  cl : List (Option ClusterData)
  s : List (Option StageData)
  c : List (Option ConnectorData)
deriving DecidableEq

/-- The value under a key in a list of pairs. -/
def getEntry (entries : List (Value × Value)) (k : Value) : Value := (entries.lookup k).getD .nil

/-- The pairs of the table at an address. -/
def entriesAt (h : Heap) (a : Nat) : List (Value × Value) :=
  match h[a]? with
  | some (.table t) => t.entries
  | _ => []

namespace Program

/-- A field of a stage. -/
def field (g : Program S C P) (s : S) (name : String) : Value :=
  getEntry (entriesAt g.heap (g.table s)) (str name)

/-- `index.is_local`. -/
def isLocal (g : Program S C P) (cl : Cluster S) (host : List UInt8) (port : Int) : Bool :=
  (g.addr cl).any fun d ↦ (g.process d).host = host ∧ (g.process d).port = port

/-- The graph with its tables of ids. -/
def withTables (g : Program S C P) (t : Tables S C P) : Program S C P :=
  { g with
    stagesid := some t.stagesid
    connectorsid := some t.connectorsid
    clustersid := some t.clustersid
    processesid := some t.processesid }

variable [DecidableEq S] [DecidableEq C] [DecidableEq P]

/-- `index.processes`. -/
def processes (g : Program S C P) : List P := (g.graph.clusters.flatMap g.addr).dedup

/-- `index.connectors`, as the set it is. -/
def connectors (g : Program S C P) : List C := g.graph.connectors.dedup

/-- The orders in which `lua_next` goes through the tables of a graph. -/
structure Traversal (g : Program S C P) where
  processes : List P
  clusters : List (Cluster S)
  stages : List S
  connectors : List C
  outputs : S → List (Port × C)
  processes_perm : processes.Perm g.processes
  clusters_perm : clusters.Perm g.graph.clusters
  stages_perm : stages.Perm g.graph.stages
  connectors_perm : connectors.Perm g.connectors
  outputs_perm : ∀ s, (outputs s).Perm (g.graph.getOutput s)

/-! ## The loops -/

/-- What the first loop makes of a process. -/
def processEntry (g : Program S C P) (d : P) : Xfer ProcessData :=
  .ok { host := (g.process d).host, port := (g.process d).port }

/-- What the second loop makes of a cluster. -/
def clusterEntry (fmt : BitVec 64 → List UInt8) (host : List UInt8) (port : Int)
    (g : Program S C P) (processesid : Ids P) (cl : Cluster S) : Xfer ClusterData :=
  .ok {
    name := tolstring fmt (g.clusterName cl)
    isLocal := g.isLocal cl host port
    processes := (g.addr cl).map processesid.get }

/-- What the third loop makes of a stage, with its environment marshalled. -/
def stageEntry (fmt : BitVec 64 → List UInt8) (m : Machine) (g : Program S C P)
    (clustersid : Ids (Cluster S)) (s : S) : Xfer StageData := do
  let env ← m.encode g.heap (g.table s)
  .ok {
    serial := g.field s "serial" ≠ .nil
    name := tolstring fmt (g.field s "name")
    env := env
    cluster := (g.graph.getCluster s).elim 0 clustersid.get
    output := [] }

/-- What the fourth loop makes of a connector. -/
def connectorEntry (fmt : BitVec 64 → List UInt8) (g : Program S C P) (stagesid : Ids S)
    (c : C) : Xfer ConnectorData :=
  .ok {
    name := tolstring fmt (g.port c).toValue
    send := tolstring fmt (g.method c)
    p := (g.graph.conn c).producer.elim 0 stagesid.get
    c := stagesid.get (g.graph.conn c).consumer }

/-- The outputs that the last loop gives to a stage. -/
def setOutput (outputs : S → List (Port × C)) (connectorsid : Ids C) (s : S) (e : StageData) :
    StageData :=
  { e with output := (outputs s).map fun kc ↦ (kc.1, connectorsid.get kc.2) }

/-- `build_graph_representation`: the tables of ids and the arrays. -/
def build (fmt : BitVec 64 → List UInt8) (m : Machine) (host : List UInt8) (port : Int)
    (g : Program S C P) (v : g.Traversal) : Xfer (Tables S C P × GraphData) := do
  let (processesid, d) ← fill g.processesid g.processes.length g.processEntry v.processes
  let (clustersid, cl) ← fill g.clustersid g.graph.clusters.length
    (g.clusterEntry fmt host port processesid) v.clusters
  let (stagesid, s) ← fill g.stagesid g.graph.stages.length
    (g.stageEntry fmt m clustersid) v.stages
  let (connectorsid, c) ← fill g.connectorsid g.connectors.length
    (g.connectorEntry fmt stagesid) v.connectors
  let s ← revisit stagesid (setOutput v.outputs connectorsid) v.stages s
  .ok (⟨stagesid, connectorsid, clustersid, processesid⟩, ⟨tolstring fmt g.title, d, cl, s, c⟩)

end Program

/-! ## What the arrays have to be -/

/-- A table of ids and its array: the ids are a bijection onto `0, …, n - 1`, every slot is
filled, and each object has an entry that is right for it. -/
structure Compiled {α E : Type} [DecidableEq α] (ids : Ids α) (objs : List α)
    (R : α → E → Prop) (arr : List (Option E)) : Prop where
  numbers : Numbers ids objs
  bijOn : Set.BijOn ids.get {a | a ∈ objs} (Set.Iio objs.length)
  filled : Filled ids R objs arr
  full : ∀ o ∈ arr, o.isSome

theorem Compiled.intro {α E : Type} [DecidableEq α] {ids : Ids α} {objs : List α}
    {R : α → E → Prop} {arr : List (Option E)} (hn : Numbers ids objs)
    (hf : Filled ids R objs arr) : Compiled ids objs R arr :=
  ⟨hn, hn.bijOn, hf, hf.isSome hn⟩

section Spec

variable (fmt : BitVec 64 → List UInt8) (m : Machine) (host : List UInt8) (port : Int)
variable (g : Program S C P) (t : Tables S C P)

/-- The entry of a process. -/
structure IsProcess (d : P) (e : ProcessData) : Prop where
  host : e.host = (g.process d).host
  port : e.port = (g.process d).port

/-- The entry of a cluster: its processes by their ids. -/
structure IsCluster (cl : Cluster S) (e : ClusterData) : Prop where
  name : e.name = tolstring fmt (g.clusterName cl)
  isLocal : e.isLocal = g.isLocal cl host port
  processes : Forall₂ (fun d i ↦ (d, i) ∈ t.processesid) (g.addr cl) e.processes

variable [DecidableEq S]

/-- The entry of a stage: its cluster and its outputs by their ids. -/
structure IsStage (s : S) (e : StageData) : Prop where
  name : e.name = tolstring fmt (g.field s "name")
  serial : e.serial = true ↔ g.field s "serial" ≠ .nil
  env : m.encode g.heap (g.table s) = .ok e.env
  cluster : ∃ cl ∈ g.graph.clusters, s ∈ cl.table ∧ (cl, e.cluster) ∈ t.clustersid
  output : ∃ outs, outs.Perm (g.graph.getOutput s) ∧
    Forall₂ (fun kc o ↦ o.1 = kc.1 ∧ (kc.2, o.2) ∈ t.connectorsid) outs e.output

omit [DecidableEq S] in
/-- The entry of a connector: its ends by their ids. -/
structure IsConnector (c : C) (e : ConnectorData) : Prop where
  name : e.name = tolstring fmt (g.port c).toValue
  send : e.send = tolstring fmt (g.method c)
  p : ∃ p, (g.graph.conn c).producer = some p ∧ (p, e.p) ∈ t.stagesid
  c : ((g.graph.conn c).consumer, e.c) ∈ t.stagesid

variable [DecidableEq C] [DecidableEq P]

/-- **The arrays represent the graph.** -/
structure Represents (data : GraphData) : Prop where
  name : data.name = tolstring fmt g.title
  processes : Compiled t.processesid g.processes (IsProcess g) data.d
  clusters : Compiled t.clustersid g.graph.clusters (IsCluster fmt host port g t) data.cl
  stages : Compiled t.stagesid g.graph.stages (IsStage fmt m g t) data.s
  connectors : Compiled t.connectorsid g.connectors (IsConnector fmt g t) data.c

/-- The output connectors of a stage are connectors of the graph, and have a producer. -/
def OutputsListed : Prop := ∀ s ∈ g.graph.stages, ∀ kc ∈ g.graph.getOutput s,
  kc.2 ∈ g.graph.conns ∧ (g.graph.conn kc.2).producer.isSome

/-- The stages can be marshalled. -/
def Marshals : Prop := ∀ s ∈ g.graph.stages, ∃ b, m.encode g.heap (g.table s) = .ok b

/-- `get_cluster` finds a cluster for each stage. -/
def Clustered : Prop := ∀ s ∈ g.graph.stages,
  ∃ cl ∈ g.graph.clusters, s ∈ cl.table ∧ g.graph.getCluster s = some cl

/-- The tables that the graph has already are tables of its objects. -/
structure Known : Prop where
  processesid : ∀ ids, g.processesid = some ids → Numbers ids g.processes
  clustersid : ∀ ids, g.clustersid = some ids → Numbers ids g.graph.clusters
  stagesid : ∀ ids, g.stagesid = some ids → Numbers ids g.graph.stages
  connectorsid : ∀ ids, g.connectorsid = some ids → Numbers ids g.connectors

/-- The build kept the tables that the graph had. -/
structure Keeps : Prop where
  processesid : ∀ ids, g.processesid = some ids → t.processesid = ids
  clustersid : ∀ ids, g.clustersid = some ids → t.clustersid = ids
  stagesid : ∀ ids, g.stagesid = some ids → t.stagesid = ids
  connectorsid : ∀ ids, g.connectorsid = some ids → t.connectorsid = ids

end Spec

/-! ## The loops build them -/

section Loops

variable {fmt : BitVec 64 → List UInt8} {m : Machine} {host : List UInt8} {port : Int}
variable {g : Program S C P} {t : Tables S C P}
variable [DecidableEq S]

/-- `get_cluster` finds the cluster of a stage of a verified graph. -/
theorem clustered_of_verify (hv : g.graph.verify = .ok true) : Clustered g := by
  intro s hs
  have hl := verify_eq_ok.1 hv
  obtain ⟨cl, ⟨hmem, hcl⟩, -⟩ := hl.existsUnique hs
  exact ⟨cl, hmem, hcl, (getCluster_eq_some hl.disjoint).2 ⟨hmem, hcl⟩⟩

theorem stageEntry_isOk (hm : Marshals m g) (clustersid : Ids (Cluster S)) {s : S}
    (hs : s ∈ g.graph.stages) : ∃ e, g.stageEntry fmt m clustersid s = .ok e := by
  obtain ⟨env, henv⟩ := hm s hs
  exact ⟨_, by rw [Program.stageEntry, henv]; rfl⟩

section Processes

variable [DecidableEq P]

/-- A process of a cluster is a process of the graph. -/
theorem Program.mem_processes {cl : Cluster S} {d : P} (hcl : cl ∈ g.graph.clusters)
    (hd : d ∈ g.addr cl) : d ∈ g.processes :=
  mem_dedup.2 (mem_flatMap.2 ⟨cl, hcl, hd⟩)

theorem isCluster_of_entry (hp : Numbers t.processesid g.processes) {cl : Cluster S}
    (hcl : cl ∈ g.graph.clusters) {e : ClusterData}
    (he : g.clusterEntry fmt host port t.processesid cl = .ok e) :
    IsCluster fmt host port g t cl e := by
  cases he
  refine ⟨rfl, rfl, ?_⟩
  rw [forall₂_map_right_iff, forall₂_same]
  exact fun d hd ↦ hp.mem_get (Program.mem_processes hcl hd)

end Processes

variable [DecidableEq C]

omit [DecidableEq S] in
theorem Program.mem_connectors {c : C} :
    c ∈ g.connectors ↔ c ∈ g.graph.conns ∧ (g.graph.conn c).producer.isSome := by
  rw [Program.connectors, mem_dedup, Graph.connectors, mem_filter]

theorem isConnector_of_entry (hst : Numbers t.stagesid g.graph.stages) {c : C}
    (hc : c ∈ g.connectors) {e : ConnectorData}
    (he : g.connectorEntry fmt t.stagesid c = .ok e) : IsConnector fmt g t c e := by
  cases he
  obtain ⟨hmem, hsome⟩ := Program.mem_connectors.1 hc
  obtain ⟨p, hp⟩ := Option.isSome_iff_exists.1 hsome
  refine ⟨rfl, rfl, ⟨p, hp, ?_⟩, ?_⟩
  · rw [hp]
    exact hst.mem_get (mem_stages.2 ⟨c, hmem, .inl hp⟩)
  · exact hst.mem_get (mem_stages.2 ⟨c, hmem, .inr rfl⟩)

/-- The second loop over the stages completes their entries. -/
theorem isStage_of_entry (hg : Clustered g) (ho : OutputsListed g)
    (hcl : Numbers t.clustersid g.graph.clusters)
    (hc : Numbers t.connectorsid g.connectors) {outputs : S → List (Port × C)}
    (hout : ∀ s, (outputs s).Perm (g.graph.getOutput s)) {s : S} (hs : s ∈ g.graph.stages)
    {e : StageData} (he : g.stageEntry fmt m t.clustersid s = .ok e) :
    IsStage fmt m g t s (Program.setOutput outputs t.connectorsid s e) := by
  obtain ⟨env, henv, he⟩ := Xfer.bind_eq_ok.1 he
  cases he
  obtain ⟨cl, hmem, hscl, hget⟩ := hg s hs
  refine ⟨rfl, by simp [Program.setOutput], henv, ⟨cl, hmem, hscl, ?_⟩,
    outputs s, hout s, ?_⟩
  · change (cl, (g.graph.getCluster s).elim 0 t.clustersid.get) ∈ t.clustersid
    rw [hget]
    exact hcl.mem_get hmem
  · change Forall₂ _ _ ((outputs s).map _)
    rw [forall₂_map_right_iff, forall₂_same]
    intro kc hkc
    have hlisted := ho s hs kc ((hout s).mem_iff.1 hkc)
    exact ⟨rfl, hc.mem_get (Program.mem_connectors.2 hlisted)⟩

variable [DecidableEq P]

/-- **The build returns arrays that represent the graph**, whichever tables of ids the
graph had, and keeps those. -/
theorem build_eq_ok (fmt : BitVec 64 → List UInt8) (host : List UInt8) (port : Int)
    (hg : Clustered g) (ho : OutputsListed g) (hm : Marshals m g)
    (hk : Known g) (v : g.Traversal) :
    ∃ t data, g.build fmt m host port v = .ok (t, data) ∧ Represents fmt m host port g t data ∧
      Keeps g t := by
  obtain ⟨processesid, d, hd, hdn, hdf, hdk⟩ := fill_eq_ok g.processEntry
    hk.processesid v.processes_perm (nodup_dedup _) fun _ _ ↦ ⟨_, rfl⟩
  obtain ⟨clustersid, cl, hcl, hcln, hclf, hclk⟩ := fill_eq_ok
    (g.clusterEntry fmt host port processesid) hk.clustersid v.clusters_perm
    (nodup_dedup _) fun _ _ ↦ ⟨_, rfl⟩
  obtain ⟨stagesid, s, hs, hsn, hsf, hsk⟩ := fill_eq_ok (g.stageEntry fmt m clustersid)
    hk.stagesid v.stages_perm (nodup_dedup _) fun _ ↦ stageEntry_isOk hm clustersid
  obtain ⟨connectorsid, c, hc, hcn, hcf, hck⟩ := fill_eq_ok (g.connectorEntry fmt stagesid)
    hk.connectorsid v.connectors_perm (nodup_dedup _) fun _ _ ↦ ⟨_, rfl⟩
  let t : Tables S C P := ⟨stagesid, connectorsid, clustersid, processesid⟩
  obtain ⟨s', hs', hsf'⟩ := (hsf.perm v.stages_perm.symm).revisit (Q := IsStage fmt m g t)
    (f := Program.setOutput v.outputs connectorsid) (hsn.perm v.stages_perm.symm)
    fun s hm e he ↦ isStage_of_entry (t := t) hg ho hcln hcn v.outputs_perm
      (v.stages_perm.mem_iff.1 hm) he
  refine ⟨t, ⟨tolstring fmt g.title, d, cl, s', c⟩, ?_, ⟨rfl, .intro hdn ?_, .intro hcln ?_,
    .intro hsn (hsf'.perm v.stages_perm), .intro hcn ?_⟩, hdk, hclk, hsk, hck⟩
  · simp only [Program.build, hd, hcl, hs, hc, hs', Xfer.ok_bind]
    rfl
  · exact hdf.mono fun d _ e he ↦ by
      cases he
      exact ⟨rfl, rfl⟩
  · exact hclf.mono fun cl hm e he ↦ isCluster_of_entry (t := t) hdn hm he
  · exact hcf.mono fun c hm e he ↦ isConnector_of_entry (t := t) hsn hm he

end Loops

end Leda.Graph
