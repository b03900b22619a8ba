import Leda.Graph.Build

/-!
# One graph in every process

The process that starts a program compiles the graph and then sends it to every other
process of the clusters, with the tables of ids in it.  For each of them
`prepare_graph` first takes out of the stages what that process does not need: the
handlers and init functions of the stages of other clusters, and all pending events;
`restore_graph` puts them back after the graph was encoded.  Nothing of this touches
the name of a stage or its `serial` field (`ship_agree`).

What arrives is a copy of the graph (`Copy`), which is compiled again, with the ids
that came with it.  The two compiled graphs agree slot by slot (`Same`): a stage, a
connector, a cluster and a process have one id everywhere.  What may differ is what
the programs of the processes make different: whether a cluster is local, the
marshalled environment of a stage, and the order of its output ports, which is that
of a table (`compiled_agree`).  Both do differ (`not_compiled_agree`), the environments
because the pending events were taken out before.
-/

namespace Leda.Graph

open Leda.Lib Leda.Lua
open List hiding Disjoint disjoint_comm

variable {S C P S' C' P' : Type}

/-! ## The tables of the stages -/

/-- `t[k]=v` in the pairs of a table. -/
def setEntry (entries : List (Value × Value)) (k v : Value) : List (Value × Value) :=
  entries.filter (fun e ↦ e.1 ≠ k) ++ if v = .nil then [] else [(k, v)]

/-- `t[k]=v` for the table at an address. -/
def setKey (h : Heap) (a : Nat) (k v : Value) : Heap :=
  match h[a]? with
  | some (.table t) => h.set a (.table { t with entries := setEntry t.entries k v })
  | _ => h

theorem getEntry_setEntry {entries : List (Value × Value)} {k k' v : Value} :
    getEntry (setEntry entries k v) k' = if k' = k then v else getEntry entries k' := by
  unfold getEntry setEntry
  induction entries with
  | nil =>
      by_cases hk : k' = k
      · by_cases hv : v = .nil <;> simp [hk, hv]
      · have hb : (k' == k) = false := beq_false_of_ne hk
        by_cases hv : v = .nil <;> simp [hk, hv, hb, lookup_cons]
  | cons e t ih =>
      obtain ⟨k₁, v₁⟩ := e
      by_cases h₁ : k₁ = k
      · subst h₁
        by_cases hk : k' = k₁
        · simpa [hk] using ih
        · have hb : (k' == k₁) = false := beq_false_of_ne hk
          simpa [hk, lookup_cons, hb] using ih
      · by_cases hk : k' = k₁
        · subst hk
          simp [h₁]
        · have hb : (k' == k₁) = false := beq_false_of_ne hk
          simpa [h₁, lookup_cons, hb] using ih

theorem entriesAt_setKey {h : Heap} {a b : Nat} {k v : Value} :
    entriesAt (setKey h a k v) b = entriesAt h b ∨
      b = a ∧ entriesAt (setKey h a k v) b = setEntry (entriesAt h b) k v := by
  unfold setKey
  split
  · rename_i t ht
    by_cases hb : b = a
    · subst hb
      have hlt : b < h.length := (List.getElem?_eq_some_iff.1 ht).1
      exact .inr ⟨rfl, by simp [entriesAt, ht, List.getElem?_set_self hlt]⟩
    · exact .inl (by simp only [entriesAt, List.getElem?_set_ne (Ne.symm hb)])
  · exact .inl rfl

/-- A new empty table is like no table. -/
theorem entriesAt_append_empty {h : Heap} {b : Nat} :
    entriesAt (h ++ [.table {}]) b = entriesAt h b := by
  unfold entriesAt
  rcases Nat.lt_trichotomy b h.length with hb | rfl | hb
  · rw [getElem?_append_left hb]
  · simp
  · rw [getElem?_eq_none (by simp; omega), getElem?_eq_none (by omega)]

/-- The fields that are compiled are the same in both heaps. -/
def Agree (h h' : Heap) : Prop :=
  ∀ a, ∀ n ∈ ["name", "serial"],
    getEntry (entriesAt h' a) (str n) = getEntry (entriesAt h a) (str n)

namespace Agree

variable {h h' h'' : Heap} {a : Nat} {k v : Value}

theorem refl (h : Heap) : Agree h h := fun _ _ _ ↦ rfl

theorem trans (h₁ : Agree h h') (h₂ : Agree h' h'') : Agree h h'' :=
  fun a n hn ↦ (h₂ a n hn).trans (h₁ a n hn)

/-- Setting another field, or a field to the value it had, changes nothing of interest. -/
theorem setKey (hh : Agree h h')
    (hk : (∀ n ∈ ["name", "serial"], str n ≠ k) ∨ v = getEntry (entriesAt h a) k) :
    Agree h (setKey h' a k v) := by
  intro b n hn
  rcases entriesAt_setKey (h := h') (a := a) (b := b) (k := k) (v := v) with he | ⟨rfl, he⟩
  · rw [he]
    exact hh b n hn
  · rw [he, getEntry_setEntry]
    split
    · rename_i heq
      subst heq
      exact hk.resolve_left fun hne ↦ hne n hn rfl
    · exact hh b n hn

theorem append_empty (hh : Agree h h') : Agree h (h' ++ [.table {}]) := by
  intro b n hn
  rw [entriesAt_append_empty]
  exact hh b n hn

/-- A loop keeps what its body keeps. -/
theorem foldl {α : Type} {f : Heap → α → Heap} {l : List α} (hh : Agree h h')
    (hf : ∀ x ∈ l, ∀ h', Agree h h' → Agree h (f h' x)) : Agree h (l.foldl f h') := by
  induction l generalizing h' with
  | nil => exact hh
  | cons x l ih =>
      exact ih (hf x mem_cons_self h' hh) fun y hy ↦ hf y (mem_cons_of_mem _ hy)

end Agree

/-! ## Shipping -/

/-- What `prepare_graph` does to a stage. -/
def prepareStage (isLocal : Bool) (h : Heap) (a : Nat) : Heap :=
  let t := entriesAt h a
  let h := setKey h a (str "name") (getEntry t (str "name"))
  let h := setKey (h ++ [.table {}]) a (str "pending") (.object h.length)
  let h := ["stagesid", "connectorsid", "clustersid"].foldl
    (fun h k ↦ setKey h a (str k) (getEntry t (str k))) h
  ["handler", "init"].foldl
    (fun h k ↦ setKey h a (str k) (if isLocal then getEntry t (str k) else str "")) h

/-- What `restore_graph` does to a stage with the saved pairs `r`. -/
def restoreStage (h : Heap) (a : Nat) (r : List (Value × Value)) : Heap :=
  r.foldl (fun h e ↦ setKey h a e.1 (getEntry r e.1)) h

theorem prepareStage_agree {isLocal : Bool} {h h' : Heap} {a : Nat} (hh : Agree h h') :
    Agree h (prepareStage isLocal h' a) := by
  refine hh.trans ?_
  have hname := (Agree.refl h').setKey (a := a) (k := str "name") (.inr rfl)
  have hpending := hname.append_empty.setKey (a := a) (k := str "pending")
    (v := .object (setKey h' a (str "name") (getEntry (entriesAt h' a) (str "name"))).length)
    (.inl (by decide))
  refine Agree.foldl (Agree.foldl hpending ?_) ?_
  · exact fun k _ h hh ↦ hh.setKey (.inr rfl)
  · intro k hk h hh
    refine hh.setKey (.inl ?_)
    revert k
    decide

namespace Program

variable {g : Program S C P} {stages : List S} {d : P} {ds : List P} {h h' h₀ : Heap}

/-- `restore_graph`, with what `prepare_graph` saved of the heap `h`. -/
def restore (g : Program S C P) (stages : List S) (h h' : Heap) : Heap :=
  stages.foldl (fun h' s ↦ restoreStage h' (g.table s) (entriesAt h (g.table s))) h'

theorem restore_agree (h₁ : Agree h₀ h) (hh : Agree h₀ h') :
    Agree h₀ (g.restore stages h h') := by
  refine hh.foldl fun s _ h' hh ↦ hh.foldl fun e _ h' hh ↦ ?_
  refine h₁.trans (Agree.setKey ?_ (.inr rfl))
  exact fun a n hn ↦ (hh a n hn).trans (h₁ a n hn).symm

variable [DecidableEq S]

/-- `prepare_graph`, visiting the stages in the order of the list. -/
def prepare (g : Program S C P) (stages : List S) (d : P) (h : Heap) : Heap :=
  stages.foldl (fun h s ↦ prepareStage
    ((g.graph.getCluster s).any fun cl ↦ g.isLocal cl (g.process d).host (g.process d).port)
    h (g.table s)) h

/-- The heaps that are encoded for the processes, one `send_graph` after the other. -/
def ship (g : Program S C P) (stages : List S) : List P → Heap → List (P × Heap)
  | [], _ => []
  | d :: ds, h =>
    let h' := g.prepare stages d h
    (d, h') :: g.ship stages ds (g.restore stages h h')

/-- `run`, from the compiled graph on: the pending events go back to the stages before the
graph is sent. -/
def run (g : Program S C P) (stages : List S) (pending : S → Value) (ds : List P) :
    List (P × Heap) :=
  g.ship stages ds
    (stages.foldl (fun h s ↦ setKey h (g.table s) (str "pending") (pending s)) g.heap)

theorem prepare_agree (hh : Agree h h') : Agree h (g.prepare stages d h') :=
  hh.foldl fun _ _ _ ↦ prepareStage_agree

/-- **What is shipped has the names and `serial` fields of the stages**, whatever was
shipped before. -/
theorem ship_agree (hh : Agree h₀ h) (hm : (d, h') ∈ g.ship stages ds h) :
    Agree h₀ h' := by
  induction ds generalizing h with
  | nil => cases hm
  | cons d₁ ds ih =>
      rcases mem_cons.1 hm with heq | hm
      · cases heq
        exact prepare_agree hh
      · exact ih (restore_agree hh (prepare_agree hh)) hm

theorem run_agree {pending : S → Value} (hm : (d, h') ∈ g.run stages pending ds) :
    Agree g.heap h' := by
  refine ship_agree (Agree.foldl (.refl _) fun s _ h hh ↦ ?_) hm
  exact hh.setKey (.inl (by decide))

end Program

/-! ## What arrives -/

/-- A value and its copy: the same scalar, or objects both. -/
def CopyOf : Value → Value → Prop
  | .object _, .object _ => True
  | v, v' => v = v'

theorem CopyOf.tolstring {fmt : BitVec 64 → List UInt8} {v v' : Value} (h : CopyOf v v') :
    tolstring fmt v = tolstring fmt v' := by
  cases v <;> cases v' <;> first | rfl | cases h <;> rfl

theorem CopyOf.ne_nil {v v' : Value} (h : CopyOf v v') : v ≠ .nil ↔ v' ≠ .nil := by
  cases v <;> cases v' <;> cases h <;> simp

/-- A shipped table of ids: its keys are the copies. -/
def Shipped {α β : Type} (f : α → β) (known : Option (Ids α)) (known' : Option (Ids β)) : Prop :=
  ∀ ids, known = some ids → ∃ ids', known' = some ids' ∧ ids'.Perm (ids.map (Prod.map f id))

section Copy

variable [DecidableEq S] [DecidableEq S'] [DecidableEq P]

/-- **A copy of a graph**, as decoding an encoded graph gives it: there is one object for
each object, and every field refers to the copies. -/
structure Copy (stage : S → S') (conn : C → C') (cluster : Cluster S → Cluster S')
    (process : P → P') (g : Program S C P) (g' : Program S' C' P') : Prop where
  stage_inj : ∀ s ∈ g.graph.stages, ∀ r ∈ g.graph.stages, stage s = stage r → s = r
  conn_inj : ∀ c ∈ g.graph.conns, ∀ d ∈ g.graph.conns, conn c = conn d → c = d
  cluster_inj : ∀ c ∈ g.graph.clusters, ∀ d ∈ g.graph.clusters, cluster c = cluster d → c = d
  process_inj : ∀ c ∈ g.processes, ∀ d ∈ g.processes, process c = process d → c = d
  conns : g'.graph.conns.Perm (g.graph.conns.map conn)
  ends : ∀ c ∈ g.graph.conns,
    (g'.graph.conn (conn c)).producer = (g.graph.conn c).producer.map stage ∧
    (g'.graph.conn (conn c)).consumer = stage (g.graph.conn c).consumer
  outputs : ∀ s ∈ g.graph.stages,
    (g'.graph.getOutput (stage s)).Perm ((g.graph.getOutput s).map (Prod.map id conn))
  clusters : g'.graph.clusters.Perm (g.graph.clusters.map cluster)
  members : ∀ cl ∈ g.graph.clusters, ∀ s', s' ∈ (cluster cl).table ↔ ∃ s ∈ cl.table, stage s = s'
  addr : ∀ cl ∈ g.graph.clusters, g'.addr (cluster cl) = (g.addr cl).map process
  title : CopyOf g.title g'.title
  fields : ∀ s ∈ g.graph.stages, ∀ n, CopyOf (g.field s n) (g'.field (stage s) n)
  port : ∀ c ∈ g.graph.conns, g'.port (conn c) = g.port c
  method : ∀ c ∈ g.graph.conns, CopyOf (g.method c) (g'.method (conn c))
  clusterName : ∀ cl ∈ g.graph.clusters,
    CopyOf (g.clusterName cl) (g'.clusterName (cluster cl))
  processes : ∀ d ∈ g.processes, g'.process (process d) = g.process d
  stagesid : Shipped stage g.stagesid g'.stagesid
  connectorsid : Shipped conn g.connectorsid g'.connectorsid
  clustersid : Shipped cluster g.clustersid g'.clustersid
  processesid : Shipped process g.processesid g'.processesid

namespace Copy

variable {stage : S → S'} {conn : C → C'} {cluster : Cluster S → Cluster S'} {process : P → P'}
variable {g : Program S C P} {g' : Program S' C' P'}
variable (h : Copy stage conn cluster process g g')

include h

/-- The stages of the copy. -/
theorem stages_perm : g'.graph.stages.Perm (g.graph.stages.map stage) := by
  refine (perm_ext_iff_of_nodup (nodup_dedup _) ((nodup_dedup _).map_on h.stage_inj)).2 fun s' ↦ ?_
  change s' ∈ g'.graph.stages ↔ s' ∈ g.graph.stages.map stage
  rw [mem_stages, mem_map]
  constructor
  · rintro ⟨c', hc', hs'⟩
    obtain ⟨c, hc, rfl⟩ := mem_map.1 (h.conns.mem_iff.1 hc')
    obtain ⟨hp, hq⟩ := h.ends c hc
    rcases hs' with hs' | rfl
    · rw [hp] at hs'
      obtain ⟨s, hs, rfl⟩ := Option.map_eq_some_iff.1 hs'
      exact ⟨s, mem_stages.2 ⟨c, hc, .inl hs⟩, rfl⟩
    · exact ⟨_, mem_stages.2 ⟨c, hc, .inr rfl⟩, hq.symm⟩
  · rintro ⟨s, hs, rfl⟩
    obtain ⟨c, hc, hs⟩ := mem_stages.1 hs
    obtain ⟨hp, hq⟩ := h.ends c hc
    refine ⟨conn c, h.conns.mem_iff.2 (mem_map_of_mem hc), ?_⟩
    rcases hs with hs | rfl
    · exact .inl (by rw [hp, hs]; rfl)
    · exact .inr hq

/-- A copied stage lies in the copy of its cluster only. -/
theorem cluster_unique (hv : g.graph.verify = .ok true) {s : S} (hs : s ∈ g.graph.stages)
    {cl : Cluster S} (hcl : cl ∈ g.graph.clusters) (hscl : s ∈ cl.table) {d' : Cluster S'}
    (hd' : d' ∈ g'.graph.clusters) (hsd' : stage s ∈ d'.table) : d' = cluster cl := by
  have hl := verify_eq_ok.1 hv
  obtain ⟨d, hd, rfl⟩ := mem_map.1 (h.clusters.mem_iff.1 hd')
  obtain ⟨r, hr, heq⟩ := (h.members d hd _).1 hsd'
  have hrs : r ∈ g.graph.stages := by
    have : r ∈ ⋃ cl ∈ g.graph.clusters, cl.stageSet := Set.mem_biUnion hd hr
    rwa [hl.covers] at this
  obtain rfl := h.stage_inj r hrs s hs heq
  rw [eq_of_mem hl.disjoint hd hcl hr hscl]

theorem clustered (hv : g.graph.verify = .ok true) : Clustered g' := by
  intro s' hs'
  obtain ⟨s, hs, rfl⟩ := mem_map.1 (h.stages_perm.mem_iff.1 hs')
  obtain ⟨cl, hcl, hscl, -⟩ := clustered_of_verify hv s hs
  have hmem := h.clusters.mem_iff.2 (mem_map_of_mem (f := cluster) hcl)
  have hcopy := (h.members cl hcl _).2 ⟨s, hscl, rfl⟩
  refine ⟨cluster cl, hmem, hcopy, ?_⟩
  have hsome : (g'.graph.getCluster (stage s)).isSome := by
    rw [Graph.getCluster, find?_isSome]
    exact ⟨cluster cl, hmem, decide_eq_true hcopy⟩
  obtain ⟨d', hd'⟩ := Option.isSome_iff_exists.1 hsome
  have hfound := find?_some hd'
  have hsd' : stage s ∈ d'.table := of_decide_eq_true hfound
  rw [hd', h.cluster_unique hv hs hcl hscl (mem_of_find?_eq_some hd') hsd']

theorem outputsListed (ho : OutputsListed g) : OutputsListed g' := by
  intro s' hs' kc' hkc'
  obtain ⟨s, hs, rfl⟩ := mem_map.1 (h.stages_perm.mem_iff.1 hs')
  obtain ⟨kc, hkc, rfl⟩ := mem_map.1 ((h.outputs s hs).mem_iff.1 hkc')
  obtain ⟨hc, hp⟩ := ho s hs kc hkc
  refine ⟨h.conns.mem_iff.2 (mem_map_of_mem hc), ?_⟩
  change (g'.graph.conn (conn kc.2)).producer.isSome = true
  rw [(h.ends _ hc).1, Option.isSome_map]
  exact hp

/-- The processes of the copy. -/
theorem processes_perm [DecidableEq P'] : g'.processes.Perm (g.processes.map process) := by
  refine (perm_ext_iff_of_nodup (nodup_dedup _) ((nodup_dedup _).map_on h.process_inj)).2
    fun d' ↦ ?_
  change d' ∈ g'.processes ↔ d' ∈ g.processes.map process
  rw [Program.processes, mem_dedup, mem_flatMap, mem_map]
  constructor
  · rintro ⟨cl', hcl', hd'⟩
    obtain ⟨cl, hcl, rfl⟩ := mem_map.1 (h.clusters.mem_iff.1 hcl')
    rw [h.addr cl hcl] at hd'
    obtain ⟨d, hd, rfl⟩ := mem_map.1 hd'
    exact ⟨d, Program.mem_processes hcl hd, rfl⟩
  · rintro ⟨d, hd, rfl⟩
    obtain ⟨cl, hcl, hd⟩ := mem_flatMap.1 (mem_dedup.1 hd)
    refine ⟨cluster cl, h.clusters.mem_iff.2 (mem_map_of_mem hcl), ?_⟩
    rw [h.addr cl hcl]
    exact mem_map_of_mem hd

/-- A connector is renamed to one connector. -/
theorem conn_nodup [DecidableEq C] : (g.connectors.map conn).Nodup :=
  (nodup_dedup _).map_on fun c hc d hd ↦
    h.conn_inj c (Program.mem_connectors.1 hc).1 d (Program.mem_connectors.1 hd).1

/-- The connectors of the copy. -/
theorem connectors_perm [DecidableEq C] [DecidableEq C'] :
    g'.connectors.Perm (g.connectors.map conn) := by
  refine (perm_ext_iff_of_nodup (nodup_dedup _) h.conn_nodup).2 fun c' ↦ ?_
  change c' ∈ g'.connectors ↔ c' ∈ g.connectors.map conn
  rw [Program.mem_connectors, mem_map, h.conns.mem_iff, mem_map]
  constructor
  · rintro ⟨⟨c, hc, rfl⟩, hp⟩
    rw [(h.ends c hc).1, Option.isSome_map] at hp
    exact ⟨c, Program.mem_connectors.2 ⟨hc, hp⟩, rfl⟩
  · rintro ⟨c, hc, rfl⟩
    obtain ⟨hc, hp⟩ := Program.mem_connectors.1 hc
    exact ⟨⟨c, hc, rfl⟩, by rwa [(h.ends c hc).1, Option.isSome_map]⟩

end Copy

end Copy

section Shipped

variable {α β : Type} [DecidableEq α] {f : α → β} {ids : Ids α} {objs : List α}
variable {objs' : List β} {known' : Option (Ids β)} {ids' : Ids β}

omit [DecidableEq α] in
/-- The shipped table is a table of the copies. -/
theorem Shipped.numbers (h : Shipped f (some ids) known') (hn : Numbers ids objs)
    (hf : (objs.map f).Nodup) (hp : objs'.Perm (objs.map f)) (hk : known' = some ids') :
    Numbers ids' objs' := by
  obtain ⟨ids'', hk', hperm⟩ := h ids rfl
  obtain rfl := Option.some.inj (hk.symm.trans hk')
  exact (hn.map hf hperm).perm hp.symm

/-- A build that kept the shipped table gives a copy the number of the object. -/
theorem Shipped.get [DecidableEq β] (h : Shipped f (some ids) known') (hn : Numbers ids objs)
    (hf : (objs.map f).Nodup) (hk : ∀ ids, known' = some ids → ids' = ids) {a : α}
    (ha : a ∈ objs) : ids'.get (f a) = ids.get a := by
  obtain ⟨ids'', hk', hperm⟩ := h ids rfl
  obtain rfl := hk ids'' hk'
  exact hn.get_map hf hperm ha

end Shipped

/-! ## The compiled graphs -/

/-- Two entries of a cluster, which may be local in one of the processes only. -/
structure SameCluster (e e' : ClusterData) : Prop where
  name : e.name = e'.name
  processes : e.processes = e'.processes

/-- Two entries of a stage, with their own environments, and the output ports in any
order. -/
structure SameStage (e e' : StageData) : Prop where
  name : e.name = e'.name
  serial : e.serial = e'.serial
  cluster : e.cluster = e'.cluster
  output : e.output.Perm e'.output

/-- **Two processes agree on a graph**, slot by slot. -/
structure Same (data data' : GraphData) : Prop where
  name : data.name = data'.name
  processes : Forall₂ (Option.Rel (· = ·)) data.d data'.d
  clusters : Forall₂ (Option.Rel SameCluster) data.cl data'.cl
  stages : Forall₂ (Option.Rel SameStage) data.s data'.s
  connectors : Forall₂ (Option.Rel (· = ·)) data.c data'.c

/-- The graph that is shipped: it has its tables, and the stages as they were prepared. -/
def Program.shippedAs (g : Program S C P) (t : Tables S C P) (h : Heap) : Program S C P :=
  { g.withTables t with heap := h }

/-- The outputs of a stage, read off its entry. -/
theorem output_eq [DecidableEq C] {connectorsid : Ids C} {objs : List C}
    (hn : Numbers connectorsid objs) {outs : List (Port × C)} {out : List (Port × Nat)}
    (h : Forall₂ (fun kc o ↦ o.1 = kc.1 ∧ (kc.2, o.2) ∈ connectorsid) outs out) :
    out = outs.map fun kc ↦ (kc.1, connectorsid.get kc.2) := by
  induction h with
  | nil => rfl
  | cons hko _ ih =>
      rw [map_cons, ← ih, hn.get_eq hko.2, ← hko.1]

section Agreement

variable [DecidableEq S] [DecidableEq C] [DecidableEq P]
variable [DecidableEq S'] [DecidableEq C'] [DecidableEq P']
variable {fmt : BitVec 64 → List UInt8} {m m' : Machine} {host host' : List UInt8}
variable {port port' : Int} {g : Program S C P} {t : Tables S C P} {heap : Heap}
variable {g' : Program S' C' P'} {t' : Tables S' C' P'} {data data' : GraphData}
variable {stage : S → S'} {conn : C → C'} {cluster : Cluster S → Cluster S'} {process : P → P'}

/-- A compiled graph, what was shipped of it, and the graph compiled there. -/
structure Twice (fmt : BitVec 64 → List UInt8) (m m' : Machine) (host host' : List UInt8)
    (port port' : Int) (g : Program S C P) (t : Tables S C P) (heap : Heap) (data : GraphData)
    (g' : Program S' C' P') (t' : Tables S' C' P') (data' : GraphData) (stage : S → S')
    (conn : C → C') (cluster : Cluster S → Cluster S') (process : P → P') : Prop where
  verified : g.graph.verify = .ok true
  outputs : OutputsListed g
  here : Represents fmt m host port g t data
  agree : Agree g.heap heap
  copy : Copy stage conn cluster process (g.shippedAs t heap) g'
  there : Represents fmt m' host' port' g' t' data'
  keeps : Keeps g' t'

namespace Twice

variable (h : Twice fmt m m' host host' port port' g t heap data g' t' data' stage conn cluster
  process)

include h

/-! The ids of the copies are the ids of the objects. -/

theorem stage_get {s : S} (hs : s ∈ g.graph.stages) :
    t'.stagesid.get (stage s) = t.stagesid.get s :=
  h.copy.stagesid.get h.here.stages.numbers ((nodup_dedup _).map_on h.copy.stage_inj)
    h.keeps.stagesid hs

theorem cluster_get {cl : Cluster S} (hcl : cl ∈ g.graph.clusters) :
    t'.clustersid.get (cluster cl) = t.clustersid.get cl :=
  h.copy.clustersid.get h.here.clusters.numbers ((nodup_dedup _).map_on h.copy.cluster_inj)
    h.keeps.clustersid hcl

theorem connector_get {c : C} (hc : c ∈ g.connectors) :
    t'.connectorsid.get (conn c) = t.connectorsid.get c :=
  h.copy.connectorsid.get h.here.connectors.numbers h.copy.conn_nodup h.keeps.connectorsid hc

theorem process_get {d : P} (hd : d ∈ g.processes) :
    t'.processesid.get (process d) = t.processesid.get d :=
  h.copy.processesid.get h.here.processes.numbers ((nodup_dedup _).map_on h.copy.process_inj)
    h.keeps.processesid hd

/-! So the entries are the same. -/

theorem sameProcess {d : P} (hd : d ∈ g.processes) {e e' : ProcessData} (he : IsProcess g d e)
    (he' : IsProcess g' (process d) e') : e = e' := by
  have hsame : g'.process (process d) = g.process d := h.copy.processes d hd
  obtain ⟨host, port⟩ := e
  obtain ⟨host', port'⟩ := e'
  obtain ⟨rfl, rfl⟩ := he
  obtain ⟨rfl, rfl⟩ := he'
  rw [hsame]

theorem sameCluster {cl : Cluster S} (hcl : cl ∈ g.graph.clusters) {e e' : ClusterData}
    (he : IsCluster fmt host port g t cl e)
    (he' : IsCluster fmt host' port' g' t' (cluster cl) e') : SameCluster e e' where
  name := by
    rw [he.name, he'.name]
    exact (h.copy.clusterName cl hcl).tolstring
  processes := by
    have haddr : g'.addr (cluster cl) = (g.addr cl).map process := h.copy.addr cl hcl
    have hp := he'.processes
    rw [haddr, forall₂_map_left_iff] at hp
    have hlen : e.processes.length = e'.processes.length :=
      he.processes.length_eq.symm.trans hp.length_eq
    refine ext_getElem hlen fun i hi hi' ↦ ?_
    have hia : i < (g.addr cl).length := he.processes.length_eq ▸ hi
    have hid := forall₂_iff_get.1 he.processes |>.2 i hia hi
    have hid' := forall₂_iff_get.1 hp |>.2 i hia hi'
    have hd : (g.addr cl).get ⟨i, hia⟩ ∈ g.processes :=
      Program.mem_processes hcl (get_mem _ _)
    have hget := h.process_get hd
    rw [h.here.processes.numbers.get_eq hid, h.there.processes.numbers.get_eq hid'] at hget
    exact hget.symm

theorem sameConnector {c : C} (hc : c ∈ g.connectors) {e e' : ConnectorData}
    (he : IsConnector fmt g t c e) (he' : IsConnector fmt g' t' (conn c) e') : e = e' := by
  obtain ⟨hconn, -⟩ := Program.mem_connectors.1 hc
  have hport : g'.port (conn c) = g.port c := h.copy.port c hconn
  have hends : (g'.graph.conn (conn c)).producer = (g.graph.conn c).producer.map stage ∧
      (g'.graph.conn (conn c)).consumer = stage (g.graph.conn c).consumer := h.copy.ends c hconn
  obtain ⟨p, hp, hpid⟩ := he.p
  obtain ⟨p', hp', hpid'⟩ := he'.p
  have hps : p ∈ g.graph.stages := mem_stages.2 ⟨c, hconn, .inl hp⟩
  have hcs : (g.graph.conn c).consumer ∈ g.graph.stages := mem_stages.2 ⟨c, hconn, .inr rfl⟩
  have hpe : e.p = e'.p := by
    have hmap : some p' = some (stage p) := by
      rw [← hp', hends.1]
      exact congrArg (Option.map stage) hp
    obtain rfl := Option.some.inj hmap
    have hget := h.stage_get hps
    rw [h.here.stages.numbers.get_eq hpid, h.there.stages.numbers.get_eq hpid'] at hget
    exact hget.symm
  have hce : e.c = e'.c := by
    have hcid' := he'.c
    rw [hends.2] at hcid'
    have hget := h.stage_get hcs
    rw [h.here.stages.numbers.get_eq he.c, h.there.stages.numbers.get_eq hcid'] at hget
    exact hget.symm
  have hname : e.name = e'.name := by rw [he.name, he'.name, hport]
  have hsend : e.send = e'.send := by
    rw [he.send, he'.send]
    exact (h.copy.method c hconn).tolstring
  cases e
  cases e'
  exact ConnectorData.mk.injEq .. ▸ ⟨hname, hsend, hpe, hce⟩

/-- A field of a stage and of its copy, if the field is one that is compiled. -/
theorem copyOf_field {s : S} (hs : s ∈ g.graph.stages) {n : String}
    (hn : n ∈ ["name", "serial"]) : CopyOf (g.field s n) (g'.field (stage s) n) := by
  have hf : (g.shippedAs t heap).field s n = g.field s n := h.agree (g.table s) n hn
  exact hf ▸ h.copy.fields s hs n

theorem sameStage {s : S} (hs : s ∈ g.graph.stages) {e e' : StageData}
    (he : IsStage fmt m g t s e) (he' : IsStage fmt m' g' t' (stage s) e') : SameStage e e' where
  name := by
    rw [he.name, he'.name]
    exact (h.copyOf_field hs (by simp)).tolstring
  serial := by
    rw [Bool.eq_iff_iff, he.serial, he'.serial]
    exact (h.copyOf_field hs (by simp)).ne_nil
  cluster := by
    obtain ⟨cl, hcl, hscl, hid⟩ := he.cluster
    obtain ⟨cl', hcl', hscl', hid'⟩ := he'.cluster
    obtain rfl := h.copy.cluster_unique h.verified hs hcl hscl hcl' hscl'
    have hget := h.cluster_get hcl
    rw [h.here.clusters.numbers.get_eq hid, h.there.clusters.numbers.get_eq hid'] at hget
    exact hget.symm
  output := by
    obtain ⟨outs, hperm, hout⟩ := he.output
    obtain ⟨outs', hperm', hout'⟩ := he'.output
    rw [output_eq h.here.connectors.numbers hout, output_eq h.there.connectors.numbers hout']
    have hcopies : outs'.Perm (outs.map (Prod.map id conn)) :=
      (hperm'.trans (h.copy.outputs s hs)).trans (hperm.symm.map _)
    refine ((hcopies.map _).trans ?_).symm
    rw [map_map]
    refine Perm.of_eq (map_congr_left fun kc hkc ↦ ?_)
    have hlisted := h.outputs s hs kc (hperm.mem_iff.1 hkc)
    have hget := h.connector_get (Program.mem_connectors.2 hlisted)
    exact Prod.ext rfl hget

/-- **The two compiled graphs agree.** -/
theorem same : Same data data' where
  name := by
    rw [h.here.name, h.there.name]
    exact h.copy.title.tolstring
  processes := h.here.processes.filled.forall₂ h.here.processes.numbers
    (h.there.processes.filled.perm h.copy.processes_perm) (fun _ ↦ h.process_get)
    fun _ hd _ _ ↦ h.sameProcess hd
  clusters := h.here.clusters.filled.forall₂ h.here.clusters.numbers
    (h.there.clusters.filled.perm h.copy.clusters) (fun _ ↦ h.cluster_get)
    fun _ hcl _ _ ↦ h.sameCluster hcl
  stages := h.here.stages.filled.forall₂ h.here.stages.numbers
    (h.there.stages.filled.perm h.copy.stages_perm) (fun _ ↦ h.stage_get)
    fun _ hs _ _ ↦ h.sameStage hs
  connectors := h.here.connectors.filled.forall₂ h.here.connectors.numbers
    (h.there.connectors.filled.perm h.copy.connectors_perm) (fun _ ↦ h.connector_get)
    fun _ hc _ _ ↦ h.sameConnector hc

end Twice

end Agreement

/-! ## The run of a program -/

/-- A graph that has not been compiled yet. -/
structure Program.Fresh (g : Program S C P) : Prop where
  stagesid : g.stagesid = none
  connectorsid : g.connectorsid = none
  clustersid : g.clustersid = none
  processesid : g.processesid = none

theorem Program.Fresh.known [DecidableEq S] [DecidableEq C] [DecidableEq P] {g : Program S C P}
    (h : g.Fresh) : Known g where
  processesid _ hk := by cases h.processesid.symm.trans hk
  clustersid _ hk := by cases h.clustersid.symm.trans hk
  stagesid _ hk := by cases h.stagesid.symm.trans hk
  connectorsid _ hk := by cases h.connectorsid.symm.trans hk

/-- A copy has tables of its own objects. -/
theorem Copy.known [DecidableEq S] [DecidableEq C] [DecidableEq P] [DecidableEq S']
    [DecidableEq C'] [DecidableEq P'] {fmt : BitVec 64 → List UInt8} {m : Machine}
    {host : List UInt8} {port : Int} {g : Program S C P} {t : Tables S C P} {heap : Heap}
    {data : GraphData} {g' : Program S' C' P'} {stage : S → S'} {conn : C → C'}
    {cluster : Cluster S → Cluster S'} {process : P → P'}
    (h : Copy stage conn cluster process (g.shippedAs t heap) g')
    (hr : Represents fmt m host port g t data) : Known g' where
  processesid _ hk := h.processesid.numbers hr.processes.numbers
    ((nodup_dedup _).map_on h.process_inj) h.processes_perm hk
  clustersid _ hk := h.clustersid.numbers hr.clusters.numbers
    ((nodup_dedup _).map_on h.cluster_inj) h.clusters hk
  stagesid _ hk := h.stagesid.numbers hr.stages.numbers
    ((nodup_dedup _).map_on h.stage_inj) h.stages_perm hk
  connectorsid _ hk := h.connectorsid.numbers hr.connectors.numbers h.conn_nodup
    h.connectors_perm hk

/-- **All processes agree on the compiled graph.** -/
theorem compiled_agree [DecidableEq S] [DecidableEq C] [DecidableEq P]
    (fmt : BitVec 64 → List UInt8) (m : Machine) (host : List UInt8) (port : Int)
    (g : Program S C P) (hfresh : g.Fresh) (hv : g.graph.verify = .ok true)
    (ho : OutputsListed g) (hm : Marshals m g) (v : g.Traversal) :
    ∃ t data, g.build fmt m host port v = .ok (t, data) ∧
      Represents fmt m host port g t data ∧
      ∀ (stages : List S) (pending : S → Value) (ds : List P) (d : P) (heap : Heap),
        (d, heap) ∈ g.run stages pending ds →
        ∀ {S' C' P' : Type} [DecidableEq S'] [DecidableEq C'] [DecidableEq P']
          (g' : Program S' C' P') (stage : S → S') (conn : C → C')
          (cluster : Cluster S → Cluster S') (process : P → P'),
          Copy stage conn cluster process (g.shippedAs t heap) g' →
          ∀ (m' : Machine) (host' : List UInt8) (port' : Int) (v' : g'.Traversal),
            Marshals m' g' →
            ∃ t' data', g'.build fmt m' host' port' v' = .ok (t', data') ∧
              Represents fmt m' host' port' g' t' data' ∧ Same data data' ∧
              (∀ s ∈ g.graph.stages, t'.stagesid.get (stage s) = t.stagesid.get s) ∧
              (∀ c ∈ g.connectors, t'.connectorsid.get (conn c) = t.connectorsid.get c) ∧
              (∀ cl ∈ g.graph.clusters,
                t'.clustersid.get (cluster cl) = t.clustersid.get cl) ∧
              ∀ d ∈ g.processes, t'.processesid.get (process d) = t.processesid.get d := by
  obtain ⟨t, data, hb, hr, -⟩ := build_eq_ok fmt host port
    (clustered_of_verify hv) ho hm hfresh.known v
  refine ⟨t, data, hb, hr, ?_⟩
  intro stages pending ds d heap hship S' C' P' _ _ _ g' stage conn cluster process hcopy m' host'
    port' v' hm'
  obtain ⟨t', data', hb', hr', hk'⟩ := build_eq_ok fmt host' port'
    (hcopy.clustered hv) (hcopy.outputsListed ho) hm' (hcopy.known hr) v'
  have htwice : Twice fmt m m' host host' port port' g t heap data g' t' data' stage conn cluster
      process := ⟨hv, ho, hr, Program.run_agree hship, hcopy, hr', hk'⟩
  exact ⟨t', data', hb', hr', htwice.same, fun _ ↦ htwice.stage_get, fun _ ↦ htwice.connector_get,
    fun _ ↦ htwice.cluster_get, fun _ ↦ htwice.process_get⟩

/-! ## One stage on two processes -/

/-- Agreement entry by entry, but for the local flag of a cluster. -/
structure SameButLocal (data data' : GraphData) : Prop where
  name : data.name = data'.name
  processes : data.d = data'.d
  clusters : Forall₂ (Option.Rel SameCluster) data.cl data'.cl
  stages : data.s = data'.s
  connectors : data.c = data'.c

/-- One stage that sends to itself, on two processes. -/
def echo : Program Nat Nat Nat where
  graph := {
    conns := [0]
    conn _ := ⟨"decoupled", some 0, 0⟩
    outputs _ := [(.string [111], 0)]
    cluster := some [⟨.given 0, .newCluster [0]⟩]
    tostring _ := "echo"
    name _ := "echo"
    bind _ := none }
  title := .nil
  heap := [.table { entries := [(str "name", str "echo"), (str "handler", .object 1)] },
    .function ⟨.lua, [27], []⟩, .table {}]
  table s := s
  port _ := .string [111]
  method _ := .nil
  clusterName _ := .nil
  addr _ := [0, 1]
  process d := ⟨[49], d⟩
  stagesid := none
  connectorsid := none
  clustersid := none
  processesid := none

/-- The machine of both processes. -/
def machine : Machine := ⟨Hooks.none, false, 4⟩

/-- The orders in which the tables are listed. -/
def listed [DecidableEq S] [DecidableEq C] [DecidableEq P] (g : Program S C P) : g.Traversal where
  processes := g.processes
  clusters := g.graph.clusters
  stages := g.graph.stages
  connectors := g.connectors
  outputs := g.graph.getOutput
  processes_perm := .refl _
  clusters_perm := .refl _
  stages_perm := .refl _
  connectors_perm := .refl _
  outputs_perm _ := .refl _

theorem CopyOf.refl (v : Value) : CopyOf v v := by
  cases v <;> trivial

theorem Shipped.refl {α : Type} (known : Option (Ids α)) : Shipped id known known :=
  fun ids h ↦ ⟨ids, h, by simp⟩

/-- A graph is a copy of itself. -/
theorem Copy.refl [DecidableEq S] [DecidableEq P] (g : Program S C P) : Copy id id id id g g where
  stage_inj _ _ _ _ h := h
  conn_inj _ _ _ _ h := h
  cluster_inj _ _ _ _ h := h
  process_inj _ _ _ _ h := h
  conns := by simp
  ends c _ := ⟨by simp, rfl⟩
  outputs s _ := by simp
  clusters := by simp
  members cl _ s := by simp
  addr cl _ := by simp
  title := .refl _
  fields s _ n := .refl _
  port _ _ := rfl
  method c _ := .refl _
  clusterName cl _ := .refl _
  processes _ _ := rfl
  stagesid := .refl _
  connectorsid := .refl _
  clustersid := .refl _
  processesid := .refl _

theorem echo_fresh : echo.Fresh := ⟨rfl, rfl, rfl, rfl⟩

theorem echo_outputsListed : OutputsListed echo := by
  intro s hs kc hkc
  have hs0 : s = 0 := by simpa [stages, echo] using hs
  have hkc0 : kc = (.string [111], 0) := by simpa [getOutput, echo] using hkc
  subst hs0 hkc0
  exact ⟨mem_singleton_self _, rfl⟩

theorem echo_marshals : Marshals machine echo := by
  intro s hs
  have hs0 : s = 0 := by simpa [stages, echo] using hs
  subst hs0
  exact ⟨_, rfl⟩

theorem compiled_agree_echo : ∃ t data heap t' data',
    echo.build (fun _ ↦ []) machine [49] 0 (listed echo) = .ok (t, data) ∧
    (1, heap) ∈ echo.run [0] (fun _ ↦ .object 2) [1] ∧
    (echo.shippedAs t heap).build (fun _ ↦ []) machine [49] 1 (listed (echo.shippedAs t heap)) =
      .ok (t', data') ∧ Same data data' := by
  obtain ⟨t, data, hb, -, hagree⟩ := compiled_agree (fun _ ↦ []) machine [49] 0 echo echo_fresh
    (by decide) echo_outputsListed echo_marshals (listed echo)
  obtain ⟨heap, hrun⟩ : ∃ heap, echo.run [0] (fun _ ↦ .object 2) [1] = [(1, heap)] := ⟨_, rfl⟩
  have hmem : (1, heap) ∈ echo.run [0] (fun _ ↦ .object 2) [1] := by
    rw [hrun]
    exact mem_singleton_self _
  have hmarshals : Marshals machine (echo.shippedAs t heap) := by
    intro s hs
    have hs0 : s = 0 := by simpa [stages, echo, Program.shippedAs, Program.withTables] using hs
    obtain rfl : heap = _ := (congrArg Prod.snd (cons.inj hrun).1).symm
    subst hs0
    exact ⟨_, rfl⟩
  obtain ⟨t', data', hb', -, hsame, -⟩ := hagree [0] _ [1] 1 heap hmem (echo.shippedAs t heap)
    id id id id (.refl _) machine [49] 1 (listed _) hmarshals
  exact ⟨t, data, heap, t', data', hb, hmem, hb', hsame⟩

/-! ## What does not agree -/

/-- `echo` with a second port. -/
def fork : Program Nat Nat Nat :=
  { echo with
    graph := { echo.graph with
      conns := [0, 1]
      outputs _ := [(.string [111], 0), (.string [112], 1)] }
    port c := if c = 0 then .string [111] else .string [112] }

/-- `echo` with a coroutine for its handler. -/
def asleep : Program Nat Nat Nat :=
  { echo with
    heap := [.table { entries := [(str "name", str "echo"), (str "handler", .object 1)] },
      .thread, .table {}] }

/-- `fork` with a connector that has no producer. -/
def loose : Program Nat Nat Nat :=
  { fork with
    graph := { fork.graph with conn c := ⟨"decoupled", if c = 0 then some 0 else none, 0⟩ } }

/-- The orders in which the tables of the copy are listed: the last port first. -/
def backwards [DecidableEq S] [DecidableEq C] [DecidableEq P] (g : Program S C P) :
    g.Traversal :=
  { listed g with
    outputs := fun s ↦ (g.graph.getOutput s).reverse
    outputs_perm := fun s ↦ reverse_perm (g.graph.getOutput s) }

theorem fork_outputsListed : OutputsListed fork := by
  intro s hs
  have hs0 : s = 0 := by simpa [stages, fork, echo] using hs
  subst hs0
  decide

theorem fork_marshals : Marshals machine fork := by
  intro s hs
  have hs0 : s = 0 := by simpa [stages, fork, echo] using hs
  subst hs0
  exact ⟨_, rfl⟩

/-- **What does not agree.**  The environments differ: the stage that is sent has an empty table
of pending events, the stage that was compiled first has none.  So may the order of the ports
of a stage, which is that of a table.  There are no arrays when a stage cannot be marshalled;
and a port whose connector has no producer is compiled with the id of another connector. -/
theorem not_compiled_agree :
    (echo.Fresh ∧ echo.graph.verify = .ok true ∧ OutputsListed echo ∧ Marshals machine echo ∧
      ∃ t data heap, echo.build (fun _ ↦ []) machine [49] 0 (listed echo) = .ok (t, data) ∧
        (1, heap) ∈ echo.run [0] (fun _ ↦ .object 2) [1] ∧
        Copy id id id id (echo.shippedAs t heap) (echo.shippedAs t heap) ∧
        ∃ t' data', (echo.shippedAs t heap).build (fun _ ↦ []) machine [49] 1
            (listed (echo.shippedAs t heap)) = .ok (t', data') ∧ ¬ SameButLocal data data') ∧
    (fork.Fresh ∧ fork.graph.verify = .ok true ∧ OutputsListed fork ∧ Marshals machine fork ∧
      ∃ t data heap, fork.build (fun _ ↦ []) machine [49] 0 (listed fork) = .ok (t, data) ∧
        (1, heap) ∈ fork.run [0] (fun _ ↦ .object 2) [1] ∧
        Copy id id id id (fork.shippedAs t heap) (fork.shippedAs t heap) ∧
        ∃ t' data', (fork.shippedAs t heap).build (fun _ ↦ []) machine [49] 1
            (backwards (fork.shippedAs t heap)) = .ok (t', data') ∧
          data.s.map (Option.map StageData.output) ≠ data'.s.map (Option.map StageData.output)) ∧
    (asleep.Fresh ∧ asleep.graph.verify = .ok true ∧ OutputsListed asleep ∧
      asleep.build (fun _ ↦ []) machine [49] 0 (listed asleep) =
        .raised "invalid value type (thread)") ∧
    (loose.Fresh ∧ loose.graph.verify = .ok true ∧ Marshals machine loose ∧
      (∀ s ∈ loose.graph.stages, ∀ kc ∈ loose.graph.getOutput s, kc.2 ∈ loose.graph.conns) ∧
      ∃ t data, loose.build (fun _ ↦ []) machine [49] 0 (listed loose) = .ok (t, data) ∧
        ¬ Represents (fun _ ↦ []) machine [49] 0 loose t data) := by
  refine ⟨?_, ?_, ?_, ?_⟩
  · refine ⟨echo_fresh, by decide, echo_outputsListed, echo_marshals, _, _, _, rfl,
      mem_cons_self, .refl _, _, _, rfl, ?_⟩
    intro h
    have hs := h.stages
    revert hs
    decide
  · refine ⟨⟨rfl, rfl, rfl, rfl⟩, by decide, fork_outputsListed, fork_marshals, _, _, _, rfl,
      mem_cons_self, .refl _, _, _, rfl, ?_⟩
    decide
  · exact ⟨⟨rfl, rfl, rfl, rfl⟩, by decide, echo_outputsListed, rfl⟩
  · have hs0 : ∀ s ∈ loose.graph.stages, s = 0 := fun s hs ↦ by
      simpa [stages, loose, fork, echo] using hs
    refine ⟨⟨rfl, rfl, rfl, rfl⟩, by decide, fun s hs ↦ ?_, fun s hs ↦ ?_, _, _, rfl, fun h ↦ ?_⟩
    · obtain rfl := hs0 s hs
      exact ⟨_, rfl⟩
    · obtain rfl := hs0 s hs
      decide
    · -- the connector of the second port has no id
      obtain ⟨e, he, -⟩ := h.stages.filled.slot 0 (by decide)
      obtain ⟨outs, hperm, hout⟩ := he.output
      have hzero : ∀ kc ∈ outs, kc.2 = 0 := fun kc hm ↦ by
        obtain ⟨n, hn, rfl⟩ := getElem_of_mem hm
        have hid := (hout.get hn (hout.length_eq ▸ hn)).2
        simpa using congrArg Prod.fst (mem_singleton.1 hid)
      exact absurd (hzero (.string [112], 1) (hperm.mem_iff.2 (by decide))) (by decide)

end Leda.Graph
