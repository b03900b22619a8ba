import Mathlib.Data.List.Dedup
import Mathlib.Data.Set.Lattice
import Mathlib.Order.CompletePartialOrder
import Mathlib.Algebra.Group.Nat.Defs

/-!
# Graphs, connectors and clusters

The objects of `leda_graph.lua`, `leda_connector.lua` and `leda_cluster.lua`.  A
graph is a set of connectors, `g.conns`, each from a producer stage (or from
nowhere) to a consumer stage, together with the table `g.outputs` that the
runtime reads: for every stage its output connectors by port key.  Its stages are
the ends of its connectors.

A cluster is a Lua table used as a set: the stages are keys, next to the key
`process_addr`.  `Table` keeps the list of keys that `pairs` goes through, without
repetition, and every operator of `leda_cluster.lua` filters the stages out of it.
Their meaning as operations on sets (`Table.mem_union`, `Table.mem_intersection`,
`Table.mem_sub`, `Table.size_eq_zero`) is all that the rest uses.

Stages `S`, connectors `C` and port keys `K` are Lua objects of which only the
identity matters; clusters are objects as well, so two clusters with equal stages
are different unless they are one object (`Ref`).
-/

universe u v w

namespace Leda.Graph

open List

variable {S : Type u} {C : Type v} {K : Type w}

/-- `assert(p, msg)`. -/
def assert (p : Bool) (msg : String) : Except String Unit :=
  if p then .ok () else .error msg

@[simp] theorem assert_eq_ok {p : Bool} {msg : String} : assert p msg = .ok () ↔ p = true := by
  cases p <;> simp [assert]

/-! ## The tables behind the clusters -/

/-- The keys of a cluster table. -/
inductive Key (S : Type u) where
  /-- A stage, with value `true`. -/
  | stage (s : S)
  /-- A string key such as `process_addr`. -/
  | field (name : String)
deriving DecidableEq

/-- `is_stage`, asked of a key. -/
def Key.isStage : Key S → Bool
  | stage _ => true
  | field _ => false

/-- The stage in a key. -/
def Key.stage? : Key S → Option S
  | stage s => some s
  | field _ => none

/-- A table used as a set: the keys in the order in which `pairs` visits them. -/
structure Table (S : Type u) where
  /-- The keys. -/
  keys : List (Key S)
  /-- A key occurs once. -/
  nodup : keys.Nodup
deriving DecidableEq

instance : Membership S (Table S) := ⟨fun t s ↦ .stage s ∈ t.keys⟩

namespace Table

/-- What `for s in pairs(t) do if is_stage(s)` visits. -/
def stages (t : Table S) : List S := t.keys.filterMap Key.stage?

@[simp] theorem mem_stages {t : Table S} {s : S} : s ∈ t.stages ↔ s ∈ t := by
  simp only [stages, mem_filterMap]
  constructor
  · rintro ⟨k, hk, hs⟩
    cases k with
    | stage s' =>
        obtain rfl := Option.some.inj hs
        exact hk
    | field => cases hs
  · intro hs
    exact ⟨.stage s, hs, rfl⟩

/-- `new_cluster`, without arguments: the table `{process_addr={}}`. -/
def empty : Table S where
  keys := [.field "process_addr"]
  nodup := nodup_singleton _

@[simp] theorem not_mem_empty {s : S} : s ∉ (empty : Table S) := by
  change Key.stage s ∉ [Key.field "process_addr"]
  simp

/-- `index.size`. -/
def size (t : Table S) : Nat := t.keys.countP Key.isStage

theorem size_eq_zero {t : Table S} : t.size = 0 ↔ ∀ s, s ∉ t := by
  rw [size, countP_eq_zero]
  constructor
  · intro h s hs
    exact h _ hs rfl
  · rintro h (s | f) hk hst
    · exact h s hk
    · cases hst

/-- `cluster_metatable.__tostring`, with the `tostring` of a stage's name. -/
def toStr (name : S → String) (t : Table S) : String :=
  "\x7b" ++ ", ".intercalate (t.stages.map name) ++ "\x7d"

/-- The cluster as a set of stages. -/
def toSet (t : Table S) : Set S := {s | s ∈ t}

@[simp] theorem mem_toSet {t : Table S} {s : S} : s ∈ t.toSet ↔ s ∈ t := Iff.rfl

variable [DecidableEq S]

instance (s : S) (t : Table S) : Decidable (s ∈ t) :=
  inferInstanceAs (Decidable (Key.stage s ∈ t.keys))

/-- `t[k]=true`. -/
def set (t : Table S) (k : Key S) : Table S where
  keys := t.keys.insert k
  nodup := t.nodup.insert

theorem mem_set {t : Table S} {s s' : S} : s ∈ t.set (.stage s') ↔ s = s' ∨ s ∈ t := by
  change Key.stage s ∈ t.keys.insert _ ↔ _
  rw [mem_insert_iff, Key.stage.injEq]
  rfl

/-- `for s in pairs(ss) do t[s]=true end`. -/
def setAll (t : Table S) (ss : List S) : Table S := ss.foldl (fun t s ↦ t.set (.stage s)) t

@[simp] theorem mem_setAll {t : Table S} {ss : List S} {s : S} :
    s ∈ t.setAll ss ↔ s ∈ ss ∨ s ∈ t := by
  induction ss generalizing t with
  | nil => simp [setAll]
  | cons s' ss ih =>
      change s ∈ (t.set (.stage s')).setAll ss ↔ _
      rw [ih, mem_set, mem_cons, or_left_comm, or_assoc]

/-- `new_cluster`. -/
def newCluster (ss : List S) : Table S := empty.setAll ss

@[simp] theorem mem_newCluster {ss : List S} {s : S} : s ∈ newCluster ss ↔ s ∈ ss := by
  simp [newCluster]

/-- `index.contains`. -/
def contains (t : Table S) (s : S) : Bool := decide (s ∈ t)

/-- `index.union`. -/
def union (c₁ c₂ : Table S) : Table S := (newCluster c₁.stages).setAll c₂.stages

@[simp] theorem mem_union {c₁ c₂ : Table S} {s : S} : s ∈ c₁.union c₂ ↔ s ∈ c₁ ∨ s ∈ c₂ := by
  simp [union, or_comm]

/-- `index.sub`. -/
def sub (c₁ c₂ : Table S) : Table S := newCluster (c₁.stages.filter fun s ↦ !c₂.contains s)

@[simp] theorem mem_sub {c₁ c₂ : Table S} {s : S} : s ∈ c₁.sub c₂ ↔ s ∈ c₁ ∧ s ∉ c₂ := by
  simp [sub, contains]

/-- `index.intersection`: `res[s]=c2[s]` adds nothing where `c2[s]` is nil. -/
def intersection (c₁ c₂ : Table S) : Table S :=
  newCluster (c₁.stages.filter fun s ↦ c₂.contains s)

@[simp] theorem mem_intersection {c₁ c₂ : Table S} {s : S} :
    s ∈ c₁.intersection c₂ ↔ s ∈ c₁ ∧ s ∈ c₂ := by
  simp [intersection, contains]

/-- The intersection is empty exactly if the clusters are disjoint. -/
theorem size_intersection_eq_zero {c₁ c₂ : Table S} :
    (c₁.intersection c₂).size = 0 ↔ Disjoint c₁.toSet c₂.toSet := by
  rw [size_eq_zero, Set.disjoint_left]
  simp

/-- The difference is empty exactly if the first cluster lies in the second. -/
theorem size_sub_eq_zero {c₁ c₂ : Table S} : (c₁.sub c₂).size = 0 ↔ c₁.toSet ⊆ c₂.toSet := by
  rw [size_eq_zero, Set.subset_def]
  simp

end Table

/-! ## Clusters, connectors, graphs -/

/-- The identity of a cluster object. -/
inductive Ref where
  /-- An object the program had before. -/
  | given (n : Nat)
  /-- The object made for the `i`-th cluster of a partition. -/
  | made (i : Nat)
deriving DecidableEq

/-- A cluster: an object and its table. -/
structure Cluster (S : Type u) where
  /-- The object. -/
  ref : Ref
  /-- Its contents. -/
  table : Table S
deriving DecidableEq

/-- The fields of a connector that the graph functions read. -/
structure Connector (S : Type u) where
  /-- `c.type`. -/
  type : String
  /-- `c.producer`, which may be nil. -/
  producer : Option S
  /-- `c.consumer`. -/
  consumer : S

/-- `index.get_type` of `leda_connector.lua`. -/
def Connector.getType (c : Connector S) : Except String String :=
  if c.type = "local" ∨ c.type = "decoupled" ∨ c.type = "cohort" then .ok c.type
  else .error ("Unkown connector type '" ++ c.type ++ "'")

theorem Connector.getType_eq_ok {c : Connector S} {type : String} :
    c.getType = .ok type ↔
      (c.type = "local" ∨ c.type = "decoupled" ∨ c.type = "cohort") ∧ c.type = type := by
  rw [getType]
  split <;> simp [*]

end Leda.Graph

namespace Leda

open List

variable {S : Type u} {C : Type v} {K : Type w}

open Graph in
/-- A graph. -/
structure Graph (S : Type u) (C : Type v) (K : Type w) where
  /-- The keys of `g.conns`. -/
  conns : List C
  /-- The connector objects. -/
  conn : C → Connector S
  /-- `g.outputs`: the output connectors of a stage with their port keys. -/
  outputs : S → List (K × C)
  /-- `g.cluster`, nil before the graph is partitioned. -/
  cluster : Option (List (Cluster S))
  /-- `tostring` of a stage. -/
  tostring : S → String
  /-- `tostring(s.name)`, which stands for a stage in the text of a cluster. -/
  name : S → String
  /-- `s.bind`, if it is a function: how the call ends. -/
  bind : S → Option (Except String Unit)

namespace Graph

/-- `index.get_output`. -/
def getOutput (g : Graph S C K) (s : S) : List (K × C) := g.outputs s

/-- `index.connectors`: the connectors with a producer. -/
def connectors (g : Graph S C K) : List C := g.conns.filter fun c ↦ (g.conn c).producer.isSome

variable [DecidableEq S]

/-- `index.stages`: the ends of the connectors. -/
def stages (g : Graph S C K) : List S :=
  (g.conns.flatMap fun c ↦ (g.conn c).producer.toList ++ [(g.conn c).consumer]).dedup

theorem mem_stages {g : Graph S C K} {s : S} :
    s ∈ g.stages ↔ ∃ c ∈ g.conns, (g.conn c).producer = some s ∨ (g.conn c).consumer = s := by
  simp [stages, eq_comm]

/-- `index.all`. -/
def all (g : Graph S C K) : Table S := (Table.newCluster []).setAll g.stages

@[simp] theorem mem_all {g : Graph S C K} {s : S} : s ∈ g.all ↔ s ∈ g.stages := by simp [all]

/-- `index.clusters`: the cluster objects, each once. -/
def clusters (g : Graph S C K) : List (Cluster S) := (g.cluster.getD []).dedup

/-- `index.get_cluster`. -/
def getCluster (g : Graph S C K) (s : S) : Option (Cluster S) :=
  g.clusters.find? fun c ↦ c.table.contains s

/-- The set of stages. -/
def stageSet (g : Graph S C K) : Set S := {s | s ∈ g.stages}

/-- A connector that is not decoupled ties its producer to its consumer. -/
def Tied (g : Graph S C K) (p q : S) : Prop :=
  ∃ c ∈ g.conns, (g.conn c).type ≠ "decoupled" ∧ (g.conn c).producer = some p ∧
    (g.conn c).consumer = q

end Graph

end Leda
