import Leda.Graph.Connect

/-!
# Constructing a graph

`leda.graph` gets a list of specifications: what `stage:connect` returns, stages, and
tables of such things.  The table of the arguments becomes the graph itself, it gets the
fields `conns`, `outputs` and `name`, and then one loop visits all its pairs and gives each
to `add_item`.

What `stage:connect` returns only enters its connector in `outputs`.  It comes into `conns`,
where `connectors` and `stages` look, because the loop comes to the field `outputs` later on:
it takes the table of ports of a stage for a table of specifications, and finds connectors in
it.  So the port keys are taken for keys of specifications, and there is one of these that
means something: `start` is the key of the start stage, and an output port of this name is an
error.

The loop before `outputs` is visited is described by `Collecting`: `conns` holds only
connectors without a producer, for the stages that were seen.  `addItem_spec` carries it
through the nested tables, and `addOutputs_spec` adds the connectors.  The construction
succeeds and collects what was declared (`Collected`) exactly if no port is NaN or has the
name `start` (`construct_iff`).
-/

namespace Leda.Graph

open Leda.Lua
open List hiding Disjoint disjoint_comm

variable {S : Type}

/-! ## Specifications -/

/-- A string of the source, as a port. -/
def portOf (s : String) : Port := .string (s.toList.map fun c ↦ UInt8.ofNat c.toNat)

/-- The key `start`. -/
def startKey : Port := portOf "start"

/-- A key of a table of specifications. -/
inductive SpecKey
  | /-- A place in the list. -/
    index (n : Nat)
  | /-- A string, or another number. -/
    port (k : Port)
  | /-- Any other value. -/
    other
deriving DecidableEq

/-- `i=='start'` -/
def SpecKey.isStart (k : SpecKey) : Bool := k = .port startKey

mutual

/-- A value that `add_item` is given. -/
inductive Spec (S : Type)
  | stage (s : S)
  | /-- What `stage:connect` returns, the table `{head=head}` with a `__call` metamethod. -/
    connection (call : ConnectCall S)
  | /-- A function that calls `g:connect`. -/
    function (call : ConnectCall S)
  | /-- A connector object. -/
    connector (c : Nat)
  | table (items : Specs S)
  | string (s : List UInt8)
  | other

/-- The pairs of a table, in the order in which `pairs` visits them. -/
inductive Specs (S : Type)
  | nil
  | cons (k : SpecKey) (v : Spec S) (rest : Specs S)

end

mutual

/-- The calls of `g:connect` that a specification leads to. -/
def Spec.calls : Spec S → List (ConnectCall S)
  | .connection call | .function call => [call]
  | .table items => items.calls
  | _ => []

def Specs.calls : Specs S → List (ConnectCall S)
  | .nil => []
  | .cons _ v rest => v.calls ++ rest.calls

end

mutual

/-- The stages that stand in a specification, as the start stage or alone. -/
def Spec.stages : Spec S → List S
  | .stage s => [s]
  | .table items => items.stages
  | _ => []

def Specs.stages : Specs S → List S
  | .nil => []
  | .cons _ v rest => v.stages ++ rest.stages

end

mutual

/-- What may be passed to `leda.graph`: the types of connectors are known, and what has the key
`start` is a stage. -/
def Spec.Admissible : Spec S → Prop
  | .connection call | .function call => call.Typed
  | .connector _ => False
  | .table items => items.Admissible
  | _ => True

def Specs.Admissible : Specs S → Prop
  | .nil => True
  | .cons k v rest => (k.isStart → ∃ s, v = .stage s) ∧ v.Admissible ∧ rest.Admissible

end

namespace Specs

/-- A table with these pairs. -/
def ofList : List (SpecKey × Spec S) → Specs S
  | [] => .nil
  | e :: l => .cons e.1 e.2 (ofList l)

/-- The value at a key. -/
def get? (k : SpecKey) : Specs S → Option (Spec S)
  | .nil => none
  | .cons k' v rest => if k' = k then some v else rest.get? k

/-- `t[k]=nil` -/
def erase (k : SpecKey) : Specs S → Specs S
  | .nil => .nil
  | .cons k' v rest => if k' = k then rest else .cons k' v (rest.erase k)

/-- The elements of a list move down. -/
def shift : Specs S → Specs S
  | .nil => .nil
  | .cons (.index n) v rest => .cons (.index (n - 1)) v rest.shift
  | .cons k v rest => .cons k v rest.shift

end Specs

/-- What `new_graph` takes from its first argument as the name of the graph. -/
def takeName (name : S → Option (List UInt8)) :
    List (Spec S) → Option (List UInt8) × List (Spec S)
  | .table items :: rest =>
    match items.get? (.index 1), items.get? (.port (portOf "name")) with
    | some (.string n), _ => (some n, .table (items.erase (.index 1)).shift :: rest)
    | _, some (.string n) => (some n, .table (items.erase (.port (portOf "name"))) :: rest)
    | _, _ => (none, .table items :: rest)
  | .stage s :: rest => (name s, .stage s :: rest)
  | p => (none, p)

/-! ## Construction -/

namespace Draft

variable [DecidableEq S]

/-- `index.connectors` -/
def connectors (g : Draft S) : List Nat :=
  g.conns.filter fun c ↦ (g.objects[c]?.bind fun o ↦ o.producer).isSome

/-- `index.stages` -/
def stages (g : Draft S) : List S :=
  (g.conns.filterMap fun c ↦ g.objects[c]?).flatMap fun o ↦ o.producer.toList ++ [o.consumer]

/-- `index.add`, for a connector. -/
def add (g : Draft S) (c : Nat) : Draft S := { g with conns := g.conns.insert c }

/-- `index.add`, for a connector that was just made. -/
def addNew (g : Draft S) (o : PortConnector S) : Draft S :=
  add { g with objects := g.objects ++ [o] } g.objects.length

/-- `index.add_stage` -/
def addStage (tostring : S → List UInt8) (g : Draft S) (s : S) : Except String (Draft S) :=
  if s ∈ g.stages then .ok g
  else do
    let o ← newConnector none (.string (tostring s)) s none
    return g.addNew o

mutual

/-- `add_item` -/
def addItem (tostring : S → List UInt8) (g : Draft S) (k : SpecKey) :
    Spec S → Except String (Draft S)
  | .stage s =>
    if k.isStart then do
      let o ← newConnector none startKey s none
      let g := g.addNew o
      assert (decide (s ∈ g.stages)) "Graph start field is not a stage in the graph"
      return g
    else g.addStage tostring s
  | .connection call =>
    if k.isStart then .error "Graph 'start' field must be a stage (got nil)"
    else do
      -- the metamethod is called, and then the field `head` of the table is added
      let (g, _) ← g.connect call
      g.addStage tostring call.head
  | .function call =>
    if k.isStart then .error "Graph 'start' field must be a stage (got nil)"
    else do
      let (g, _) ← g.connect call
      return g
  | .connector c =>
    if k.isStart then .error "Graph 'start' field must be a stage (got nil)"
    else .ok (g.add c)
  | .table items =>
    if k.isStart then .error "Graph 'start' field must be a stage (got nil)"
    else addTable tostring g items
  | .string _ | .other =>
    if k.isStart then .error "Graph 'start' field must be a stage (got nil)"
    else .ok g

/-- `add_table` -/
def addTable (tostring : S → List UInt8) (g : Draft S) : Specs S → Except String (Draft S)
  | .nil => .ok g
  | .cons k v rest => do
    let g ← addItem tostring g k v
    addTable tostring g rest

end

/-- The fields that `new_graph` sets in the table of its arguments. -/
inductive Field
  | conns
  | outputs
  | name
deriving DecidableEq

/-- The orders in which `pairs` visits the fields of the graph and the tables in them. -/
structure Order where
  visit : {α : Type} → List α → List α
  visit_perm : ∀ {α : Type} (l : List α), (visit l).Perm l
  fields : List Field
  fields_perm : fields.Perm [.conns, .outputs, .name]

/-- `g.conns`, as `add_table` sees it. -/
def connsTable (g : Draft S) (order : Order) : Specs S :=
  .ofList ((order.visit g.conns).map fun _ ↦ (.other, .other))

/-- `g.outputs`, as `add_table` sees it. -/
def outputsTable (g : Draft S) (order : Order) : Specs S :=
  .ofList ((order.visit g.outputs).map fun st ↦ (.other, .table (.ofList
    ((order.visit st.2).map fun kc ↦ (.port kc.1, .connector kc.2)))))

/-- `add_item`, for a field of the graph. -/
def addField (tostring : S → List UInt8) (order : Order) (title : Option (List UInt8))
    (g : Draft S) : Field → Except String (Draft S)
  | .conns => addItem tostring g (.port (portOf "conns")) (.table (g.connsTable order))
  | .outputs => addItem tostring g (.port (portOf "outputs")) (.table (g.outputsTable order))
  | .name => addItem tostring g (.port (portOf "name")) (.string (title.getD []))

/-- The loop over the fields. -/
def addFields (tostring : S → List UInt8) (order : Order) (title : Option (List UInt8))
    (g : Draft S) : List Field → Except String (Draft S)
  | [] => .ok g
  | f :: fs => do
    let g ← g.addField tostring order title f
    g.addFields tostring order title fs

/-- The arguments, as the first part of the table of the graph. -/
def argsTable : Nat → List (Spec S) → Specs S
  | _, [] => .nil
  | i, v :: p => .cons (.index i) v (argsTable (i + 1) p)

/-- `new_graph` -/
def newGraph (tostring : S → List UInt8) (name : S → Option (List UInt8)) (order : Order)
    (p : List (Spec S)) : Except String (Draft S) := do
  let (title, p) := takeName name p
  let g ← addTable tostring empty (argsTable 1 p)
  g.addFields tostring order title order.fields

/-! ## The loop over the arguments -/

section Items

variable {g g' : Draft S} {tostring : S → List UInt8} {s : S} {k : SpecKey} {port : Port}
variable {calls : List (ConnectCall S)} {ss ss' : List S} {call : ConnectCall S} {c : Nat}
variable {o : PortConnector S}

omit [DecidableEq S] in
theorem mem_stages : s ∈ g.stages ↔ ∃ c ∈ g.conns, ∃ o, g.objects[c]? = some o ∧
    (o.producer = some s ∨ o.consumer = s) := by
  simp only [stages, mem_flatMap, mem_filterMap, mem_append, Option.mem_toList,
    mem_singleton]
  constructor
  · rintro ⟨o, ⟨c, hc, ho⟩, hs⟩
    exact ⟨c, hc, o, ho, hs.imp_right Eq.symm⟩
  · rintro ⟨c, hc, o, ho, hs⟩
    exact ⟨o, ⟨c, hc, ho⟩, hs.imp_right Eq.symm⟩

omit [DecidableEq S] in
theorem mem_connectors : c ∈ g.connectors ↔ c ∈ g.conns ∧ ∃ o s, g.objects[c]? = some o ∧
    o.producer = some s := by
  rw [connectors, mem_filter, Option.isSome_iff_exists]
  refine and_congr_right fun _ ↦ ?_
  constructor
  · rintro ⟨s, hs⟩
    obtain ⟨o, ho, hp⟩ := Option.bind_eq_some_iff.1 hs
    exact ⟨o, s, ho, hp⟩
  · rintro ⟨o, s, ho, hp⟩
    exact ⟨s, Option.bind_eq_some_iff.2 ⟨o, ho, hp⟩⟩

/-- **The graph after these calls of `connect`, when these stages were added.**  Only
connectors without a producer are in `conns`; those that were connected are in `outputs`. -/
structure Collecting (g : Draft S) (calls : List (ConnectCall S)) (ss : List S) : Prop where
  sound : g.Sound
  keys : ∀ call ∈ calls, call.port.isNaN = false
  ports : ∀ s k, (g.connector? s k).isSome ↔ ∃ call ∈ calls, call.At s k = true
  conns : ∀ c ∈ g.conns, ∃ o, g.objects[c]? = some o ∧ o.producer = none ∧
    (o.consumer ∈ ss ∨ ∃ call ∈ calls, call.head = o.consumer)
  seen : ∀ s ∈ ss, ∃ c ∈ g.conns, ∃ o, g.objects[c]? = some o ∧ o.consumer = s

theorem collecting_empty : Collecting (empty : Draft S) [] [] where
  sound := sound_empty
  keys := by simp
  ports s k := by simp [connector?, output?, Draft.ports, empty]
  conns _ h := by cases h
  seen _ h := by cases h

/-- A call of `connect` adds its port. -/
theorem Collecting.connect (h : Collecting g calls ss) (hn : call.port.isNaN = false)
    (hc : Connected g call g' c) : Collecting g' (calls ++ [call]) ss := by
  refine ⟨hc.sound, ?_, fun s k ↦ ?_, fun c hcm ↦ ?_, fun s hs ↦ ?_⟩
  · rw [forall_mem_append]
    exact ⟨h.keys, forall_mem_singleton.2 hn⟩
  · simp only [mem_append, mem_singleton, or_and_right, exists_or, exists_eq_left]
    cases hat : call.At s k with
    | true => simp [hc.here s k hat]
    | false =>
        rw [hc.other s k hat, h.ports s k]
        simp
  · rw [hc.conns] at hcm
    obtain ⟨o, ho, hp, hs⟩ := h.conns c hcm
    refine ⟨o, hc.mute c o ho hp, hp, hs.imp_right fun hex ↦ ?_⟩
    obtain ⟨call', hm, heq⟩ := hex
    exact ⟨call', mem_append_left _ hm, heq⟩
  · obtain ⟨c, hcm, o, ho, hs⟩ := h.seen s hs
    obtain ⟨o', ho', hp, -⟩ := h.conns c hcm
    obtain rfl := Option.some.inj (ho.symm.trans ho')
    exact ⟨c, hc.conns ▸ hcm, o, hc.mute c o ho hp, hs⟩

/-- New objects do not change the table of outputs. -/
theorem connector?_append (hg : g.Sound) {l : List Nat} {port : Port} :
    connector? { g with objects := g.objects ++ [o], conns := l } s port =
      g.connector? s port := by
  change (g.output? s port).bind _ = (g.output? s port).bind _
  refine Option.bind_congr fun c hc ↦ ?_
  obtain ⟨k', hm, -⟩ := hg.output?_eq_some.1 hc
  obtain ⟨o', ho', -⟩ := hg.objects s _ hm
  change (g.objects ++ [o])[c]?.map _ = _
  rw [getElem?_append_left (List.getElem?_eq_some_iff.1 ho').1]

theorem Sound.append (hg : g.Sound) {l : List Nat} :
    Sound { g with objects := g.objects ++ [o], conns := l } where
  distinct := hg.distinct
  keys := hg.keys
  objects s e he := by
    obtain ⟨o', ho', hrest⟩ := hg.objects s e he
    refine ⟨o', ?_, hrest⟩
    change (g.objects ++ [o])[e.2]? = some o'
    rwa [getElem?_append_left (List.getElem?_eq_some_iff.1 ho').1]
  nodup := hg.nodup

/-- A new connector without a producer adds its consumer. -/
theorem Collecting.addNew (h : Collecting g calls ss) (hp : o.producer = none)
    (hsub : ∀ s ∈ ss, s ∈ ss') (hs : ∀ s ∈ ss', s ∈ ss ∨ s = o.consumer)
    (ho : o.consumer ∈ ss' ∨ ∃ call ∈ calls, call.head = o.consumer) :
    Collecting (g.addNew o) calls ss' := by
  have hold : ∀ (c : Nat) o', g.objects[c]? = some o' → (g.addNew o).objects[c]? = some o' := by
    intro c o' ho'
    change (g.objects ++ [o])[c]? = some o'
    rwa [getElem?_append_left (List.getElem?_eq_some_iff.1 ho').1]
  have hnew : (g.addNew o).objects[g.objects.length]? = some o := getElem?_concat_length
  have hmem : ∀ c, c ∈ (g.addNew o).conns ↔ c = g.objects.length ∨ c ∈ g.conns :=
    fun c ↦ mem_insert_iff
  refine ⟨h.sound.append, h.keys, fun s k ↦ ?_, fun c hc ↦ ?_, fun s hs' ↦ ?_⟩
  · change (connector? { g with objects := _, conns := _ } s k).isSome ↔ _
    rw [connector?_append h.sound]
    exact h.ports s k
  · rcases (hmem c).1 hc with rfl | hc
    · exact ⟨o, hnew, hp, ho⟩
    · obtain ⟨o', ho', hp', hcons⟩ := h.conns c hc
      exact ⟨o', hold c o' ho', hp', hcons.imp_left (hsub _)⟩
  · rcases hs s hs' with hs | rfl
    · obtain ⟨c, hc, o', ho', hcons⟩ := h.seen s hs
      exact ⟨c, (hmem c).2 (.inr hc), o', hold c o' ho', hcons⟩
    · exact ⟨_, (hmem _).2 (.inl rfl), o, hnew, rfl⟩

omit [DecidableEq S] in
theorem newConnector_none : newConnector none port s none =
    .ok ⟨⟨"decoupled", none, s⟩, port⟩ := rfl

/-- A stage that is added is a stage of the graph. -/
theorem addStage_spec (h : Collecting g calls ss) (hsub : ∀ s ∈ ss, s ∈ ss')
    (hs : ∀ s' ∈ ss', s' ∈ ss ∨ s' = s) (ho : s ∈ ss' ∨ ∃ call ∈ calls, call.head = s) :
    ∃ g', g.addStage tostring s = .ok g' ∧ Collecting g' calls ss' := by
  by_cases hmem : s ∈ g.stages
  · refine ⟨g, if_pos hmem, h.sound, h.keys, h.ports, fun c hc ↦ ?_, fun s' hs' ↦ ?_⟩
    · obtain ⟨o, ho, hp, hcons⟩ := h.conns c hc
      exact ⟨o, ho, hp, hcons.imp_left (hsub _)⟩
    · rcases hs s' hs' with hs' | rfl
      · exact h.seen s' hs'
      · obtain ⟨c, hc, o, ho, hends⟩ := mem_stages.1 hmem
        obtain ⟨o', ho', hp, -⟩ := h.conns c hc
        obtain rfl := Option.some.inj (ho.symm.trans ho')
        exact ⟨c, hc, o, ho, hends.resolve_left (by simp [hp])⟩
  · refine ⟨g.addNew ⟨⟨"decoupled", none, s⟩, .string (tostring s)⟩, ?_,
      h.addNew rfl hsub hs ho⟩
    rw [addStage, if_neg hmem, newConnector_none]
    rfl

/-- A call of `connect`, in a loop. -/
theorem call_spec (h : Collecting g calls ss) (ht : call.Typed) :
    (call.port.isNaN = false → ∃ g' c, g.connect call = .ok (g', c) ∧
      Collecting g' (calls ++ [call]) ss) ∧
    (call.port.isNaN = true → ∃ err, g.connect call = .error err) := by
  constructor
  · intro hn
    obtain ⟨g', c, hc, hconn⟩ := connect_eq_ok h.sound ht hn
    exact ⟨g', c, hc, h.connect hn hconn⟩
  · exact fun hn ↦ ⟨_, connect_error h.sound ht hn⟩

omit [DecidableEq S] in
/-- Only a stage may have the key `start`. -/
theorem isStart_eq_false {v : Spec S} (hk : k.isStart → ∃ s, v = .stage s)
    (hv : ∀ s, v ≠ .stage s) : k.isStart = false := by
  cases hks : k.isStart with
  | false => rfl
  | true =>
      obtain ⟨s, hs⟩ := hk hks
      exact absurd hs (hv s)

/-- An item that adds nothing. -/
theorem addItem_ignored {v : Spec S} (h : Collecting g calls ss) (hc : v.calls = [])
    (hs : v.stages = []) (hi : addItem tostring g k v = .ok g) :
    ((∀ call ∈ v.calls, call.port.isNaN = false) → ∃ g', addItem tostring g k v = .ok g' ∧
      Collecting g' (calls ++ v.calls) (ss ++ v.stages)) ∧
    ((∃ call ∈ v.calls, call.port.isNaN = true) → ∃ err, addItem tostring g k v = .error err) := by
  rw [hc, hs, append_nil, append_nil]
  refine ⟨fun _ ↦ ⟨g, hi, h⟩, fun hex ↦ ?_⟩
  obtain ⟨call, hm, -⟩ := hex
  cases hm

/-- A call with a port that is NaN ends what follows it. -/
theorem call_error {β : Type} {f : Draft S × Nat → Except String β}
    (herr : call.port.isNaN = true → ∃ err, g.connect call = .error err)
    (hex : ∃ call' ∈ [call], call'.port.isNaN = true) :
    ∃ err, (g.connect call >>= f) = .error err := by
  obtain ⟨call', hm, hn⟩ := hex
  obtain rfl := mem_singleton.1 hm
  obtain ⟨err, he⟩ := herr hn
  exact ⟨err, by rw [he]; rfl⟩

mutual

/-- **What `add_item` does with a specification**: it fails exactly if a port is NaN, and
otherwise the connectors and the stages of the specification are collected. -/
theorem addItem_spec (tostring : S → List UInt8) (v : Spec S) {g : Draft S}
    {calls : List (ConnectCall S)} {ss : List S}
    {k : SpecKey} (h : Collecting g calls ss) (ha : v.Admissible)
    (hk : k.isStart → ∃ s, v = .stage s) :
    ((∀ call ∈ v.calls, call.port.isNaN = false) → ∃ g', addItem tostring g k v = .ok g' ∧
      Collecting g' (calls ++ v.calls) (ss ++ v.stages)) ∧
    ((∃ call ∈ v.calls, call.port.isNaN = true) → ∃ err, addItem tostring g k v = .error err) := by
  cases v with
  | stage s =>
      refine ⟨fun _ ↦ ?_, fun hex ↦ ?_⟩
      · rw [show (Spec.stage s).calls = [] from rfl, show (Spec.stage s).stages = [s] from rfl,
          append_nil, addItem]
        split
        · have hc : Collecting (g.addNew ⟨⟨"decoupled", none, s⟩, startKey⟩) calls (ss ++ [s]) :=
            h.addNew rfl (fun _ ↦ mem_append_left _) (by simp) (.inl (by simp))
          refine ⟨_, ?_, hc⟩
          have hmem : s ∈ (g.addNew ⟨⟨"decoupled", none, s⟩, startKey⟩).stages := by
            obtain ⟨c, hcm, o, ho, hs⟩ := hc.seen s (by simp)
            exact mem_stages.2 ⟨c, hcm, o, ho, .inr hs⟩
          rw [newConnector_none]
          change (assert (decide _) _ >>= fun _ ↦ _) = _
          rw [decide_eq_true hmem]
          rfl
        · exact addStage_spec h (fun _ ↦ mem_append_left _) (by simp) (.inl (by simp))
      · obtain ⟨call, hm, -⟩ := hex
        cases hm
  | connection call =>
      have hks := isStart_eq_false hk (by simp)
      obtain ⟨hok, herr⟩ := call_spec h ha
      rw [addItem, hks, if_neg (by simp)]
      refine ⟨fun hn ↦ ?_, fun hex ↦ ?_⟩
      · obtain ⟨g₁, c, hc, hcoll⟩ := hok (hn call (mem_singleton_self _))
        rw [hc, show (Spec.connection call).calls = [call] from rfl,
          show (Spec.connection call).stages = [] from rfl, append_nil]
        exact addStage_spec hcoll (fun _ h ↦ h) (fun _ h ↦ .inl h)
          (.inr ⟨call, by simp, rfl⟩)
      · exact call_error herr hex
  | function call =>
      have hks := isStart_eq_false hk (by simp)
      obtain ⟨hok, herr⟩ := call_spec h ha
      rw [addItem, hks, if_neg (by simp)]
      refine ⟨fun hn ↦ ?_, fun hex ↦ ?_⟩
      · obtain ⟨g₁, c, hc, hcoll⟩ := hok (hn call (mem_singleton_self _))
        rw [hc, show (Spec.function call).calls = [call] from rfl,
          show (Spec.function call).stages = [] from rfl, append_nil]
        exact ⟨g₁, rfl, hcoll⟩
      · exact call_error herr hex
  | connector c => exact ha.elim
  | table items =>
      have hks := isStart_eq_false hk (by simp)
      rw [addItem, hks, if_neg (by simp)]
      exact addTable_spec tostring items h ha
  | string n | other =>
      have hks := isStart_eq_false hk (by simp)
      exact addItem_ignored h rfl rfl (by rw [addItem, hks, if_neg (by simp)])

/-- What `add_table` does with the pairs of a table. -/
theorem addTable_spec (tostring : S → List UInt8) (items : Specs S) {g : Draft S}
    {calls : List (ConnectCall S)} {ss : List S} (h : Collecting g calls ss)
    (ha : items.Admissible) :
    ((∀ call ∈ items.calls, call.port.isNaN = false) →
      ∃ g', addTable tostring g items = .ok g' ∧
        Collecting g' (calls ++ items.calls) (ss ++ items.stages)) ∧
    ((∃ call ∈ items.calls, call.port.isNaN = true) →
      ∃ err, addTable tostring g items = .error err) := by
  cases items with
  | nil =>
      refine ⟨fun _ ↦ ⟨g, rfl, ?_⟩, fun hex ↦ ?_⟩
      · rwa [Specs.calls, Specs.stages, append_nil, append_nil]
      · obtain ⟨call, hm, -⟩ := hex
        cases hm
  | cons k v rest =>
      obtain ⟨hk, hv, hrest⟩ := ha
      obtain ⟨hok, herr⟩ := addItem_spec tostring v h hv hk
      rw [addTable]
      refine ⟨fun hn ↦ ?_, fun hex ↦ ?_⟩
      · rw [Specs.calls] at hn
        obtain ⟨g₁, hg₁, hcoll⟩ := hok fun call hm ↦ hn call (mem_append_left _ hm)
        obtain ⟨g₂, hg₂, hcoll₂⟩ := (addTable_spec tostring rest hcoll hrest).1
          fun call hm ↦ hn call (mem_append_right _ hm)
        refine ⟨g₂, by rw [hg₁]; exact hg₂, ?_⟩
        rwa [Specs.calls, Specs.stages, ← append_assoc, ← append_assoc]
      · by_cases hall : ∀ call ∈ v.calls, call.port.isNaN = false
        · obtain ⟨g₁, hg₁, hcoll⟩ := hok hall
          obtain ⟨call, hm, hn⟩ := hex
          rw [Specs.calls] at hm
          rcases mem_append.1 hm with hm | hm
          · rw [hall call hm] at hn
            cases hn
          · obtain ⟨err, he⟩ := (addTable_spec tostring rest hcoll hrest).2 ⟨call, hm, hn⟩
            exact ⟨err, by rw [hg₁]; exact he⟩
        · have hex' : ∃ call ∈ v.calls, call.port.isNaN = true := by
            by_contra hno
            refine hall fun call hm ↦ ?_
            rw [← Bool.not_eq_true]
            exact fun hn ↦ hno ⟨call, hm, hn⟩
          obtain ⟨err, he⟩ := herr hex'
          exact ⟨err, by rw [he]; rfl⟩

end

end Items

/-! ## The loop over the fields -/

section Fields

variable {g g' g₁ : Draft S} {tostring : S → List UInt8} {s : S} {k : Port} {c : Nat}
variable {order : Order} {title : Option (List UInt8)} {p q : Nat → Prop}

omit [DecidableEq S] in
/-- These connectors were added to the graph. -/
def Added (g g' : Draft S) (p : Nat → Prop) : Prop :=
  ∃ l, g' = { g with conns := l } ∧ ∀ c, c ∈ l ↔ c ∈ g.conns ∨ p c

omit [DecidableEq S] in
theorem Added.refl : Added g g fun _ ↦ False := ⟨g.conns, rfl, by simp⟩

omit [DecidableEq S] in
theorem Added.trans (h : Added g g₁ p) (h' : Added g₁ g' q) : Added g g' fun c ↦ p c ∨ q c := by
  obtain ⟨l, rfl, hl⟩ := h
  obtain ⟨l', rfl, hl'⟩ := h'
  refine ⟨l', rfl, fun c ↦ (hl' c).trans ?_⟩
  rw [← or_assoc]
  exact or_congr_left (hl c)

omit [DecidableEq S] in
theorem Added.congr (h : Added g g' p) (hpq : ∀ c, p c ↔ q c) : Added g g' q := by
  obtain ⟨l, rfl, hl⟩ := h
  exact ⟨l, rfl, fun c ↦ (hl c).trans (or_congr_right (hpq c))⟩

/-- The values in `conns` are ignored. -/
theorem addTable_ignored {α : Type} (l : List α) :
    addTable tostring g (.ofList (l.map fun _ ↦ (.other, .other))) = .ok g := by
  induction l with
  | nil => rfl
  | cons a l ih =>
      rw [map_cons, Specs.ofList, addTable]
      exact ih

/-- **The table of ports of a stage is visited**: its connectors are added, unless one of them
is at the port `start`. -/
theorem addPorts_spec (tostring : S → List UInt8) (l : List (Port × Nat)) :
    ((∀ kc ∈ l, kc.1 ≠ startKey) → ∃ g', addTable tostring g
      (.ofList (l.map fun kc ↦ (.port kc.1, .connector kc.2))) = .ok g' ∧
        Added g g' fun c ↦ ∃ k, (k, c) ∈ l) ∧
    ((∃ kc ∈ l, kc.1 = startKey) → ∃ err, addTable tostring g
      (.ofList (l.map fun kc ↦ (.port kc.1, .connector kc.2))) = .error err) := by
  induction l generalizing g with
  | nil =>
      refine ⟨fun _ ↦ ⟨g, rfl, Added.refl.congr (by simp)⟩, fun hex ↦ ?_⟩
      obtain ⟨kc, hm, -⟩ := hex
      cases hm
  | cons kc l ih =>
      rw [map_cons, Specs.ofList, addTable, addItem]
      by_cases hk : kc.1 = startKey
      · have hks : (SpecKey.port kc.1).isStart = true := by simp [SpecKey.isStart, hk]
        rw [if_pos hks]
        refine ⟨fun hall ↦ absurd hk (hall kc mem_cons_self), fun _ ↦ ⟨_, rfl⟩⟩
      · have hks : (SpecKey.port kc.1).isStart = false := by simp [SpecKey.isStart, hk]
        rw [hks, if_neg (by simp)]
        obtain ⟨hok, herr⟩ := ih (g := g.add kc.2)
        refine ⟨fun hall ↦ ?_, fun hex ↦ ?_⟩
        · obtain ⟨g', hg', hadd⟩ := hok fun e he ↦ hall e (mem_cons_of_mem _ he)
          have hone : Added g (g.add kc.2) fun c ↦ c = kc.2 :=
            ⟨_, rfl, fun c ↦ mem_insert_iff.trans or_comm⟩
          refine ⟨g', hg', (hone.trans hadd).congr fun c ↦ ?_⟩
          constructor
          · rintro (rfl | ⟨k, hm⟩)
            · exact ⟨kc.1, mem_cons_self⟩
            · exact ⟨k, mem_cons_of_mem _ hm⟩
          · rintro ⟨k, hm⟩
            rcases mem_cons.1 hm with heq | hm
            · exact .inl (congrArg Prod.snd heq)
            · exact .inr ⟨k, hm⟩
        · obtain ⟨e, hm, he⟩ := hex
          rcases mem_cons.1 hm with rfl | hm
          · exact absurd he hk
          · exact herr ⟨e, hm, he⟩

/-- A port has the name `start`. -/
def HasStart (l : List (S × List (Port × Nat))) : Prop := ∃ st ∈ l, ∃ kc ∈ st.2, kc.1 = startKey

/-- **The table of outputs is visited**: its connectors are added, unless one of them is at a
port `start`. -/
theorem addOutputs_spec (tostring : S → List UInt8) (order : Order)
    (l : List (S × List (Port × Nat))) :
    (¬ HasStart l → ∃ g', addTable tostring g (.ofList (l.map fun st ↦ (.other, .table (.ofList
        ((order.visit st.2).map fun kc ↦ (.port kc.1, .connector kc.2)))))) = .ok g' ∧
      Added g g' fun c ↦ ∃ st ∈ l, ∃ k, (k, c) ∈ st.2) ∧
    (HasStart l → ∃ err, addTable tostring g (.ofList (l.map fun st ↦ (.other, .table (.ofList
        ((order.visit st.2).map fun kc ↦ (.port kc.1, .connector kc.2)))))) = .error err) := by
  induction l generalizing g with
  | nil =>
      refine ⟨fun _ ↦ ⟨g, rfl, Added.refl.congr (by simp)⟩, fun hex ↦ ?_⟩
      obtain ⟨st, hm, -⟩ := hex
      cases hm
  | cons st l ih =>
      rw [map_cons, Specs.ofList, addTable, addItem]
      have hks : SpecKey.other.isStart = false := rfl
      rw [hks, if_neg (by simp)]
      have hmem : ∀ kc, kc ∈ order.visit st.2 ↔ kc ∈ st.2 := fun kc ↦ (order.visit_perm _).mem_iff
      obtain ⟨hok, herr⟩ := addPorts_spec (g := g) tostring (order.visit st.2)
      by_cases hst : ∀ kc ∈ st.2, kc.1 ≠ startKey
      · obtain ⟨g₁, hg₁, hadd₁⟩ := hok fun kc hkc ↦ hst kc ((hmem kc).1 hkc)
        obtain ⟨hok', herr'⟩ := ih (g := g₁)
        change (_ → ∃ g', (addTable tostring g _ >>= fun g ↦ addTable tostring g _) = _ ∧ _) ∧
          (_ → ∃ err, (addTable tostring g _ >>= fun g ↦ addTable tostring g _) = _)
        rw [hg₁]
        refine ⟨fun hno ↦ ?_, fun hex ↦ ?_⟩
        · obtain ⟨g', hg', hadd⟩ := hok' fun hex ↦ hno (by
            obtain ⟨st', hm, hkc⟩ := hex
            exact ⟨st', mem_cons_of_mem _ hm, hkc⟩)
          refine ⟨g', hg', (hadd₁.trans hadd).congr fun c ↦ ?_⟩
          constructor
          · rintro (⟨k, hm⟩ | ⟨st', hm, hc⟩)
            · exact ⟨st, mem_cons_self, k, (hmem _).1 hm⟩
            · exact ⟨st', mem_cons_of_mem _ hm, hc⟩
          · rintro ⟨st', hm, k, hc⟩
            rcases mem_cons.1 hm with rfl | hm
            · exact .inl ⟨k, (hmem _).2 hc⟩
            · exact .inr ⟨st', hm, k, hc⟩
        · obtain ⟨st', hm, kc, hkc, hs⟩ := hex
          rcases mem_cons.1 hm with rfl | hm
          · exact absurd hs (hst kc hkc)
          · exact herr' ⟨st', hm, kc, hkc, hs⟩
      · have hex : ∃ kc ∈ order.visit st.2, kc.1 = startKey := by
          by_contra hno
          exact hst fun kc hkc hs ↦ hno ⟨kc, (hmem kc).2 hkc, hs⟩
        obtain ⟨err, he⟩ := herr hex
        refine ⟨fun hno ↦ ?_, fun _ ↦ ⟨err, ?_⟩⟩
        · obtain ⟨kc, hkc, hs⟩ := hex
          exact absurd ⟨st, mem_cons_self, kc, (hmem kc).1 hkc, hs⟩ hno
        · rw [he]
          rfl

omit [DecidableEq S] in
theorem Added.outputs_eq (h : Added g g' p) : g'.outputs = g.outputs := by
  obtain ⟨l, rfl, -⟩ := h
  rfl

/-- What visiting one field does. -/
theorem addField_spec (tostring : S → List UInt8) (order : Order) (title : Option (List UInt8))
    (f : Field) :
    (¬ (f = .outputs ∧ HasStart g.outputs) → ∃ g', g.addField tostring order title f = .ok g' ∧
      Added g g' fun c ↦ f = .outputs ∧ ∃ st ∈ g.outputs, ∃ k, (k, c) ∈ st.2) ∧
    (f = .outputs ∧ HasStart g.outputs →
      ∃ err, g.addField tostring order title f = .error err) := by
  cases f with
  | conns =>
      refine ⟨fun _ ↦ ⟨g, ?_, Added.refl.congr (by simp)⟩, fun h ↦ by cases h.1⟩
      rw [addField, addItem, if_neg (by decide)]
      exact addTable_ignored _
  | name =>
      refine ⟨fun _ ↦ ⟨g, ?_, Added.refl.congr (by simp)⟩, fun h ↦ by cases h.1⟩
      rw [addField, addItem, if_neg (by decide)]
  | outputs =>
      have hmem : ∀ st, st ∈ order.visit g.outputs ↔ st ∈ g.outputs :=
        fun st ↦ (order.visit_perm _).mem_iff
      have hstart : HasStart (order.visit g.outputs) ↔ HasStart g.outputs :=
        exists_congr fun st ↦ and_congr_left fun _ ↦ hmem st
      obtain ⟨hok, herr⟩ := addOutputs_spec (g := g) tostring order
        (order.visit g.outputs)
      rw [hstart] at hok herr
      rw [addField, addItem, if_neg (by decide)]
      refine ⟨fun hno ↦ ?_, fun h ↦ herr h.2⟩
      obtain ⟨g', hg', hadd⟩ := hok fun h ↦ hno ⟨rfl, h⟩
      refine ⟨g', hg', hadd.congr fun c ↦ ?_⟩
      rw [exists_congr fun st ↦ and_congr_left fun _ ↦ hmem st]
      simp

/-- **The fields of the graph are visited, in any order.** -/
theorem addFields_spec (tostring : S → List UInt8) (order : Order)
    (title : Option (List UInt8)) (fs : List Field) :
    (¬ (Field.outputs ∈ fs ∧ HasStart g.outputs) →
      ∃ g', g.addFields tostring order title fs = .ok g' ∧
        Added g g' fun c ↦ Field.outputs ∈ fs ∧ ∃ st ∈ g.outputs, ∃ k, (k, c) ∈ st.2) ∧
    (Field.outputs ∈ fs ∧ HasStart g.outputs →
      ∃ err, g.addFields tostring order title fs = .error err) := by
  induction fs generalizing g with
  | nil =>
      refine ⟨fun _ ↦ ⟨g, rfl, Added.refl.congr (by simp)⟩, fun h ↦ ?_⟩
      cases h.1
  | cons f fs ih =>
      obtain ⟨hok, herr⟩ := addField_spec (g := g) tostring order title f
      rw [addFields]
      by_cases hf : f = .outputs ∧ HasStart g.outputs
      · obtain ⟨err, he⟩ := herr hf
        refine ⟨fun hno ↦ absurd ⟨hf.1 ▸ mem_cons_self, hf.2⟩ hno, fun _ ↦ ⟨err, ?_⟩⟩
        rw [he]
        rfl
      · obtain ⟨g₁, hg₁, hadd₁⟩ := hok hf
        obtain ⟨hok', herr'⟩ := ih (g := g₁)
        rw [hadd₁.outputs_eq] at hok' herr'
        rw [hg₁]
        refine ⟨fun hno ↦ ?_, fun h ↦ ?_⟩
        · obtain ⟨g', hg', hadd⟩ := hok' fun h ↦ hno ⟨mem_cons_of_mem _ h.1, h.2⟩
          refine ⟨g', hg', (hadd₁.trans hadd).congr fun c ↦ ?_⟩
          rw [← or_and_right, mem_cons, eq_comm]
        · refine herr' ⟨?_, h.2⟩
          rcases mem_cons.1 h.1 with heq | hm
          · exact absurd ⟨heq.symm, h.2⟩ hf
          · exact hm

end Fields

/-! ## What is collected -/

/-- The calls of `g:connect` that the arguments of `leda.graph` lead to. -/
def argCalls (p : List (Spec S)) : List (ConnectCall S) := p.flatMap Spec.calls

/-- The stages among the arguments and in their tables, a start stage included. -/
def argStages (p : List (Spec S)) : List S := p.flatMap Spec.stages

/-- **The graph has what was declared**: a connector for each producer and port, which is in
`outputs`; these are its connectors, and their ends and the stages that were passed are its
stages. -/
structure Collected (p : List (Spec S)) (g : Draft S) : Prop where
  declared : ∀ s k, (g.connector? s k).isSome ↔ ∃ call ∈ argCalls p, call.At s k = true
  ends : ∀ s k c o, g.connector? s k = some (c, o) → o.producer = some s ∧ o.port.same k = true
  unique : ∀ s k s' k' c o o', g.connector? s k = some (c, o) →
    g.connector? s' k' = some (c, o') → s = s' ∧ k.same k' = true
  connectors : ∀ c, c ∈ g.connectors ↔ ∃ s k o, g.connector? s k = some (c, o)
  stages : ∀ s, s ∈ g.stages ↔ (∃ s' k c o, g.connector? s' k = some (c, o) ∧
    (o.producer = some s ∨ o.consumer = s)) ∨ s ∈ argStages p

section Main

variable {g g' : Draft S} {calls : List (ConnectCall S)} {ss : List S} {c : Nat}

/-- The ports of a stage are those that the table of outputs has for it. -/
theorem Sound.mem_ports_iff (hg : g.Sound) {s : S} {kc : Port × Nat} :
    kc ∈ g.ports s ↔ ∃ t, (s, t) ∈ g.outputs ∧ kc ∈ t := by
  constructor
  · intro hm
    cases hl : g.outputs.lookup s with
    | none =>
        rw [Draft.ports, hl] at hm
        cases hm
    | some t =>
        rw [Draft.ports, hl] at hm
        exact ⟨t, (lookup_mem_ports hg.nodup).2 hl, hm⟩
  · rintro ⟨t, hst, hm⟩
    have hports : g.ports s = t := by
      rw [Draft.ports, (lookup_mem_ports hg.nodup).1 hst]
      rfl
    rwa [hports]

/-- What is in the table of outputs is at a port. -/
theorem Sound.mem_outputs_iff (hg : g.Sound) : (∃ st ∈ g.outputs, ∃ k, (k, c) ∈ st.2) ↔
    ∃ s k o, g.connector? s k = some (c, o) := by
  constructor
  · rintro ⟨⟨s, t⟩, hst, k, hm⟩
    have hm' : (k, c) ∈ g.ports s := hg.mem_ports_iff.2 ⟨t, hst, hm⟩
    obtain ⟨o, ho, -⟩ := hg.objects s _ hm'
    exact ⟨s, k, o, hg.connector?_eq_some.2 ⟨⟨k, hm', Port.same_refl (hg.keys s _ hm')⟩, ho⟩⟩
  · rintro ⟨s, k, o, h⟩
    obtain ⟨⟨k', hm, -⟩, -⟩ := hg.connector?_eq_some.1 h
    obtain ⟨t, hst, hm⟩ := hg.mem_ports_iff.1 hm
    exact ⟨(s, t), hst, k', hm⟩

omit [DecidableEq S] in
theorem same_startKey {k : Port} : k.same startKey = true ↔ k = startKey := by
  cases k with
  | string s =>
      refine Port.same_string.trans ⟨fun h ↦ by rw [h]; rfl, fun h ↦ ?_⟩
      exact Port.string.inj h
  | number d =>
      constructor
      · intro h
        cases h
      · intro h
        cases h

/-- A port has the name `start` exactly if one was declared so. -/
theorem Collecting.hasStart_iff (h : Collecting g calls ss) :
    HasStart g.outputs ↔ ∃ call ∈ calls, call.port = startKey := by
  have hg := h.sound
  have hport : (∃ call ∈ calls, call.port = startKey) ↔
      ∃ s, (g.connector? s startKey).isSome := by
    constructor
    · rintro ⟨call, hm, hk⟩
      exact ⟨call.head, (h.ports _ _).2 ⟨call, hm, At_iff.2 ⟨rfl, same_startKey.2 hk⟩⟩⟩
    · rintro ⟨s, hs⟩
      obtain ⟨call, hm, hat⟩ := (h.ports _ _).1 hs
      exact ⟨call, hm, same_startKey.1 (At_iff.1 hat).2⟩
  rw [hport]
  constructor
  · rintro ⟨⟨s, t⟩, hst, ⟨k, c⟩, hm, rfl⟩
    have hm' : (startKey, c) ∈ g.ports s := hg.mem_ports_iff.2 ⟨t, hst, hm⟩
    obtain ⟨o, ho, -⟩ := hg.objects s _ hm'
    refine ⟨s, Option.isSome_iff_exists.2 ⟨(c, o), hg.connector?_eq_some.2 ⟨⟨_, hm', ?_⟩, ho⟩⟩⟩
    exact same_startKey.2 rfl
  · rintro ⟨s, hs⟩
    obtain ⟨⟨c, o⟩, hco⟩ := Option.isSome_iff_exists.1 hs
    obtain ⟨⟨k', hm, hk⟩, -⟩ := hg.connector?_eq_some.1 hco
    obtain rfl := same_startKey.1 hk
    obtain ⟨t, hst, hm⟩ := hg.mem_ports_iff.1 hm
    exact ⟨(s, t), hst, _, hm, rfl⟩

/-- **When the connectors of `outputs` are added, everything is collected.** -/
theorem Collecting.collected {p : List (Spec S)}
    (h : Collecting g (argCalls p) (argStages p))
    (hadd : Added g g' fun c ↦ ∃ st ∈ g.outputs, ∃ k, (k, c) ∈ st.2) : Collected p g' := by
  obtain ⟨l, rfl, hl⟩ := hadd
  have hg := h.sound
  have hl' : ∀ c, c ∈ l ↔ c ∈ g.conns ∨ ∃ s k o, g.connector? s k = some (c, o) :=
    fun c ↦ (hl c).trans (or_congr_right hg.mem_outputs_iff)
  refine ⟨h.ports, fun s k c o hco ↦ hg.producer_eq hco,
    fun s k s' k' c o o' hco hco' ↦ hg.port_unique hco hco', fun c ↦ ?_, fun s ↦ ?_⟩
  · rw [mem_connectors]
    change (c ∈ l ∧ ∃ o s, g.objects[c]? = some o ∧ o.producer = some s) ↔
      ∃ s k o, g.connector? s k = some (c, o)
    rw [hl' c]
    constructor
    · rintro ⟨hc | hc, o, s, ho, hp⟩
      · obtain ⟨o', ho', hp', -⟩ := h.conns c hc
        obtain rfl := Option.some.inj (ho.symm.trans ho')
        rw [hp] at hp'
        cases hp'
      · exact hc
    · rintro ⟨s, k, o, hco⟩
      exact ⟨.inr ⟨s, k, o, hco⟩, o, s, (hg.connector?_eq_some.1 hco).2,
        (hg.producer_eq hco).1⟩
  · rw [mem_stages]
    change (∃ c ∈ l, ∃ o, g.objects[c]? = some o ∧ (o.producer = some s ∨ o.consumer = s)) ↔
      (∃ s' k c o, g.connector? s' k = some (c, o) ∧
        (o.producer = some s ∨ o.consumer = s)) ∨ s ∈ argStages p
    constructor
    · rintro ⟨c, hc, o, ho, hs⟩
      rcases (hl' c).1 hc with hc | ⟨s', k, o', hco⟩
      · obtain ⟨o', ho', hp, hcons⟩ := h.conns c hc
        obtain rfl := Option.some.inj (ho.symm.trans ho')
        obtain rfl := hs.resolve_left (by simp [hp])
        rcases hcons with hcons | ⟨call, hm, hhead⟩
        · exact .inr hcons
        · -- the stage is the head of a connection, so it is a producer
          left
          obtain ⟨⟨c', o'⟩, hco⟩ := Option.isSome_iff_exists.1
            ((h.ports call.head call.port).2
              ⟨call, hm, At_iff.2 ⟨rfl, Port.same_refl (h.keys call hm)⟩⟩)
          exact ⟨_, _, c', o', hco, .inl (hhead ▸ (hg.producer_eq hco).1)⟩
      · obtain rfl := Option.some.inj (ho.symm.trans (hg.connector?_eq_some.1 hco).2)
        exact .inl ⟨s', k, c, o, hco, hs⟩
    · rintro (⟨s', k, c, o, hco, hs⟩ | hs)
      · exact ⟨c, (hl' c).2 (.inr ⟨s', k, o, hco⟩), o, (hg.connector?_eq_some.1 hco).2, hs⟩
      · obtain ⟨c, hc, o, ho, hcons⟩ := h.seen s hs
        exact ⟨c, (hl' c).2 (.inl hc), o, ho, .inr hcons⟩

end Main

/-! ## The arguments -/

section Args

variable {k : SpecKey} {n : List UInt8} {items : Specs S} {p : List (Spec S)}

omit [DecidableEq S] in
/-- Taking a string out of a table takes nothing that is collected. -/
theorem erase_spec (h : items.get? k = some (.string n)) :
    (items.erase k).calls = items.calls ∧ (items.erase k).stages = items.stages ∧
      (items.Admissible → (items.erase k).Admissible) := by
  induction items using Specs.rec (motive_1 := fun _ ↦ True) with
  | cons k' v rest _ ih =>
      rw [Specs.get?] at h
      rw [Specs.erase]
      split at h
      · rename_i hk
        obtain rfl := Option.some.inj h
        rw [if_pos hk]
        exact ⟨rfl, rfl, fun ha ↦ ha.2.2⟩
      · rename_i hk
        obtain ⟨hc, hs, ha⟩ := ih h
        rw [if_neg hk, Specs.calls, Specs.stages, Specs.calls, Specs.stages, hc, hs]
        exact ⟨rfl, rfl, fun h ↦ ⟨h.1, h.2.1, ha h.2.2⟩⟩
  | nil => cases h
  | _ => trivial

omit [DecidableEq S] in
theorem shift_spec (items : Specs S) : items.shift.calls = items.calls ∧
    items.shift.stages = items.stages ∧ (items.Admissible → items.shift.Admissible) := by
  induction items using Specs.rec (motive_1 := fun _ ↦ True) with
  | cons k v rest _ ih =>
      obtain ⟨hc, hs, ha⟩ := ih
      cases k with
      | index n =>
          rw [Specs.shift, Specs.calls, Specs.stages, Specs.calls, Specs.stages, hc, hs]
          exact ⟨rfl, rfl, fun h ↦ ⟨fun hk ↦ (by cases hk), h.2.1, ha h.2.2⟩⟩
      | port k =>
          change v.calls ++ rest.shift.calls = v.calls ++ rest.calls ∧
            v.stages ++ rest.shift.stages = v.stages ++ rest.stages ∧ _
          rw [hc, hs]
          exact ⟨rfl, rfl, fun h ↦ ⟨h.1, h.2.1, ha h.2.2⟩⟩
      | other =>
          change v.calls ++ rest.shift.calls = v.calls ++ rest.calls ∧
            v.stages ++ rest.shift.stages = v.stages ++ rest.stages ∧ _
          rw [hc, hs]
          exact ⟨rfl, rfl, fun h ↦ ⟨h.1, h.2.1, ha h.2.2⟩⟩
  | nil => exact ⟨rfl, rfl, id⟩
  | _ => trivial

omit [DecidableEq S] in
/-- Neither does taking the name. -/
theorem takeName_spec (name : S → Option (List UInt8)) (p : List (Spec S)) :
    argCalls (takeName name p).2 = argCalls p ∧ argStages (takeName name p).2 = argStages p ∧
      ((∀ v ∈ p, v.Admissible) → ∀ v ∈ (takeName name p).2, v.Admissible) := by
  have htable : ∀ (items items' : Specs S) (rest : List (Spec S)), items'.calls = items.calls →
      items'.stages = items.stages → (items.Admissible → items'.Admissible) →
      argCalls (.table items' :: rest) = argCalls (.table items :: rest) ∧
        argStages (.table items' :: rest) = argStages (.table items :: rest) ∧
        ((∀ v ∈ Spec.table items :: rest, v.Admissible) →
          ∀ v ∈ Spec.table items' :: rest, v.Admissible) := by
    intro items items' rest hc hs ha
    refine ⟨?_, ?_, fun h ↦ ?_⟩
    · change items'.calls ++ _ = items.calls ++ _
      rw [hc]
    · change items'.stages ++ _ = items.stages ++ _
      rw [hs]
    · obtain ⟨hv, hrest⟩ := forall_mem_cons.1 h
      exact forall_mem_cons.2 ⟨ha hv, hrest⟩
  unfold takeName
  split
  · rename_i items rest
    split
    · rename_i n hget
      obtain ⟨hc, hs, ha⟩ := erase_spec hget
      obtain ⟨hc', hs', ha'⟩ := shift_spec (items.erase (.index 1))
      exact htable _ _ rest (hc'.trans hc) (hs'.trans hs) fun h ↦ ha' (ha h)
    · rename_i n hget _
      obtain ⟨hc, hs, ha⟩ := erase_spec hget
      exact htable _ _ rest hc hs ha
    · exact ⟨rfl, rfl, id⟩
  · exact ⟨rfl, rfl, id⟩
  · exact ⟨rfl, rfl, id⟩

omit [DecidableEq S] in
theorem argsTable_spec (i : Nat) (p : List (Spec S)) : (argsTable i p).calls = argCalls p ∧
    (argsTable i p).stages = argStages p ∧
      ((∀ v ∈ p, v.Admissible) → (argsTable i p).Admissible) := by
  induction p generalizing i with
  | nil => exact ⟨rfl, rfl, fun _ ↦ trivial⟩
  | cons v p ih =>
      obtain ⟨hc, hs, ha⟩ := ih (i + 1)
      rw [argsTable, Specs.calls, Specs.stages, hc, hs]
      refine ⟨rfl, rfl, fun h ↦ ?_⟩
      obtain ⟨hv, hp⟩ := forall_mem_cons.1 h
      exact ⟨fun hk ↦ (by cases hk), hv, ha hp⟩

/-- **The construction succeeds and collects what was declared exactly if** no port is NaN or
has the name `start`. -/
theorem construct_iff (tostring : S → List UInt8) (name : S → Option (List UInt8))
    (order : Order) (hp : ∀ v ∈ p, v.Admissible) :
    (∃ g, newGraph tostring name order p = .ok g ∧ Collected p g) ↔
      ∀ call ∈ argCalls p, call.port.isNaN = false ∧ call.port ≠ startKey := by
  obtain ⟨hc, hs, ha⟩ := takeName_spec name p
  obtain ⟨hc', hs', ha'⟩ := argsTable_spec 1 (takeName name p).2
  obtain ⟨hok, herr⟩ := addTable_spec tostring (argsTable 1 (takeName name p).2)
    collecting_empty (ha' (ha hp))
  rw [hc', hc] at hok herr
  rw [hs', hs, nil_append, nil_append] at hok
  have hnew : newGraph tostring name order p =
      (addTable tostring empty (argsTable 1 (takeName name p).2) >>= fun g ↦
        g.addFields tostring order (takeName name p).1 order.fields) := rfl
  have hfield : Field.outputs ∈ order.fields := order.fields_perm.mem_iff.2 (by simp)
  by_cases hn : ∀ call ∈ argCalls p, call.port.isNaN = false
  · obtain ⟨g, hg, hcoll⟩ := hok hn
    obtain ⟨hok', herr'⟩ := addFields_spec (g := g) tostring order (takeName name p).1
      order.fields
    rw [hnew, hg]
    by_cases hstart : ∃ call ∈ argCalls p, call.port = startKey
    · obtain ⟨err, he⟩ := herr' ⟨hfield, hcoll.hasStart_iff.2 hstart⟩
      constructor
      · rintro ⟨g', hg', -⟩
        change addFields tostring order _ g order.fields = _ at hg'
        rw [he] at hg'
        cases hg'
      · intro hall
        obtain ⟨call, hm, hk⟩ := hstart
        exact absurd hk (hall call hm).2
    · obtain ⟨g', hg', hadd⟩ := hok' fun h ↦ hstart (hcoll.hasStart_iff.1 h.2)
      refine ⟨fun _ call hm ↦ ⟨hn call hm, fun hk ↦ hstart ⟨call, hm, hk⟩⟩, fun _ ↦ ?_⟩
      exact ⟨g', hg', hcoll.collected (hadd.congr fun c ↦ by simp [hfield])⟩
  · obtain ⟨call, hm, hnan⟩ : ∃ call ∈ argCalls p, call.port.isNaN = true := by
      by_contra hno
      refine hn fun call hm ↦ ?_
      rw [← Bool.not_eq_true]
      exact fun h ↦ hno ⟨call, hm, h⟩
    obtain ⟨err, he⟩ := herr ⟨call, hm, hnan⟩
    rw [hnew, he]
    constructor
    · rintro ⟨g', hg', -⟩
      cases hg'
    · intro hall
      have hfalse := (hall call hm).1
      rw [hnan] at hfalse
      cases hfalse

/-- The order of the list. -/
def inOrder : Order where
  visit l := l
  visit_perm _ := .refl _
  fields := [.conns, .outputs, .name]
  fields_perm := .refl _

theorem construct_iff_one : (∃ g, newGraph (fun _ ↦ []) (fun _ ↦ none) inOrder
      [.connection ⟨0, none, 1, none⟩, .stage 2] = .ok g ∧
        Collected [.connection ⟨0, none, 1, none⟩, .stage 2] g) ↔
    ∀ call ∈ argCalls [.connection (⟨0, none, 1, none⟩ : ConnectCall Nat), .stage 2],
      call.port.isNaN = false ∧ call.port ≠ startKey := by
  refine construct_iff _ _ _ ?_
  intro v hv
  rcases mem_cons.1 hv with rfl | hv
  · exact .inr (.inl rfl)
  · obtain rfl := mem_singleton.1 hv
    trivial

/-- **An output port with the name `start` is an error.** -/
theorem not_construct :
    (∀ v ∈ [Spec.connection (⟨0, some startKey, 1, none⟩ : ConnectCall Nat)], v.Admissible) ∧
    ¬ ∃ g, newGraph (fun _ ↦ []) (fun _ ↦ none) inOrder
      [.connection ⟨0, some startKey, 1, none⟩] = .ok g ∧
        Collected [.connection ⟨0, some startKey, 1, none⟩] g := by
  refine ⟨fun v hv ↦ ?_, ?_⟩
  · obtain rfl := mem_singleton.1 hv
    exact .inr (.inl rfl)
  · rintro ⟨g, hg, -⟩
    have herr : newGraph (fun _ ↦ []) (fun _ ↦ none) inOrder
        [.connection (⟨0, some startKey, 1, none⟩ : ConnectCall Nat)] =
          .error "Graph 'start' field must be a stage (got nil)" := rfl
    rw [herr] at hg
    cases hg

end Args

end Draft

end Leda.Graph
