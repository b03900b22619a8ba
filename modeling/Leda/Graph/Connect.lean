import Leda.Graph.Build
import Leda.Lua.Table

/-!
# Connecting stages

`g:connect` makes a connector for an output port of a stage and enters it in
`g.outputs`.  Connectors are objects: if the port has one already, it is not replaced
but changed, since others may hold it.  The producer and the consumer are set anew; the
type is not, although the type decides which stages may be on different clusters and how
`send` passes its events on.

A `Draft` is a graph in this stage of its life, with its connector objects.  What one
call does to a port is `connector?_connect`: the call that finds the port empty gives the
connector its type, each later one only its consumer.  By induction over the calls
(`connector?_connectAll`), after any sequence of calls a port has the consumer of the
last call and the type of the first.  So the last call wins completely exactly if it
agrees with the first in the type, and no port is NaN, for which `connect` raises an error
(`last_wins_iff`).
-/

namespace Leda.Graph

open Leda.Lua
open List hiding Disjoint disjoint_comm

variable {S : Type}

/-! ## Ports -/

/-- The keys are one key of a table. -/
def Port.same (k k' : Port) : Bool := rawEq k.toValue k'.toValue

/-- The port can be no key of a table. -/
def Port.isNaN : Port → Bool
  | string _ => false
  | number d => Lua.isNaN d

/-- The number `1`, the port of `stage:connect(tail)`. -/
def Port.one : Port := .number 0x3FF0000000000000#64

namespace Port

variable {k k' k'' : Port}

theorem same_string {s s' : List UInt8} : (string s).same (string s') = true ↔ s = s' := by
  simp [same, toValue, rawEq]

theorem same_number {d d' : BitVec 64} : (number d).same (number d') = true ↔
    (Lua.isNaN d = false ∧ Lua.isNaN d' = false) ∧
      (d = d' ∨ d <<< 1 = 0#64 ∧ d' <<< 1 = 0#64) := by
  simp only [same, toValue, rawEq, numEq, Bool.and_eq_true, Bool.or_eq_true, beq_iff_eq,
    Bool.not_eq_true']

theorem same_refl (h : k.isNaN = false) : k.same k = true := by
  cases k with
  | string s => exact same_string.2 rfl
  | number d => exact same_number.2 ⟨⟨h, h⟩, .inl rfl⟩

theorem same_symm (h : k.same k' = true) : k'.same k = true := by
  cases k with
  | string s =>
      cases k' with
      | string s' => exact same_string.2 (same_string.1 h).symm
      | number d' => cases h
  | number d =>
      cases k' with
      | string s' => cases h
      | number d' =>
          obtain ⟨⟨hd, hd'⟩, heq⟩ := same_number.1 h
          exact same_number.2 ⟨⟨hd', hd⟩, heq.imp Eq.symm And.symm⟩

theorem same_comm : k.same k' = k'.same k := by
  rw [Bool.eq_iff_iff]
  exact ⟨same_symm, same_symm⟩

theorem same_trans (h : k.same k' = true) (h' : k'.same k'' = true) : k.same k'' = true := by
  cases k' with
  | string s' =>
      cases k with
      | number d => cases h
      | string s =>
          obtain rfl := same_string.1 h
          exact h'
  | number d' =>
      cases k with
      | string s => cases h
      | number d =>
          cases k'' with
          | string s'' => cases h'
          | number d'' =>
              obtain ⟨⟨hd, -⟩, heq⟩ := same_number.1 h
              obtain ⟨⟨-, hd''⟩, heq'⟩ := same_number.1 h'
              refine same_number.2 ⟨⟨hd, hd''⟩, ?_⟩
              rcases heq with rfl | ⟨hz, hz'⟩
              · exact heq'
              · rcases heq' with rfl | ⟨-, hz''⟩
                · exact .inr ⟨hz, hz'⟩
                · exact .inr ⟨hz, hz''⟩

theorem isNaN_of_same (h : k.same k' = true) : k.isNaN = false := by
  cases k with
  | string s => rfl
  | number d =>
      cases k' with
      | string s' => cases h
      | number d' => exact (same_number.1 h).1.1

end Port

/-! ## Drafts -/

/-- A connector with its port. -/
structure PortConnector (S : Type) extends Connector S where
  /-- `c.port`. -/
  port : Port

/-- `new_connector` -/
def newConnector (prod : Option S) (port : Port) (cons : S) (ctype : Option String) :
    Except String (PortConnector S) := do
  let c : PortConnector S := ⟨⟨ctype.getD "decoupled", prod, cons⟩, port⟩
  let _ ← c.getType
  return c

/-- A graph before it is partitioned, with the connector objects that were made. -/
structure Draft (S : Type) where
  /-- The connector objects. -/
  objects : List (PortConnector S)
  /-- `g.outputs`: the tables of ports, in the order in which `pairs` visits them. -/
  outputs : List (S × List (Port × Nat))
  /-- The keys of `g.conns`. -/
  conns : List Nat
  /-- `g.start`, as `set_start` sets it. -/
  start : Option S

/-- The arguments of `stage:connect`, by which the constructor calls `g:connect`. -/
structure ConnectCall (S : Type) where
  head : S
  /-- Absent if the key is the tail. -/
  key : Option Port
  tail : S
  /-- `method`, the type of the connector. -/
  method : Option String

namespace ConnectCall

/-- The port that is meant. -/
def port (call : ConnectCall S) : Port := call.key.getD .one

/-- The type that is meant. -/
def type (call : ConnectCall S) : String := call.method.getD "decoupled"

/-- The call is for this port of this stage. -/
def At [DecidableEq S] (s : S) (k : Port) (call : ConnectCall S) : Bool :=
  call.head = s ∧ call.port.same k

end ConnectCall

/-- The type is one that `new_connector` knows. -/
def ConnectCall.Typed (call : ConnectCall S) : Prop :=
  call.type = "local" ∨ call.type = "decoupled" ∨ call.type = "cohort"

namespace Draft

variable [DecidableEq S]

/-- `g.outputs[s]`, where a table that is absent counts as empty. -/
def ports (g : Draft S) (s : S) : List (Port × Nat) := (g.outputs.lookup s).getD []

/-- `g.outputs[s][k]` -/
def output? (g : Draft S) (s : S) (k : Port) : Option Nat :=
  ((g.ports s).find? fun e ↦ e.1.same k).map Prod.snd

/-- `g.outputs[s]=t` -/
def setPorts (g : Draft S) (s : S) (t : List (Port × Nat)) : List (S × List (Port × Nat)) :=
  g.outputs.filter (fun e ↦ e.1 ≠ s) ++ [(s, t)]

/-- `index.connect` -/
def connect (g : Draft S) (call : ConnectCall S) : Except String (Draft S × Nat) :=
  match g.output? call.head call.port with
  | some c =>
    -- `g.outputs[head][key]=c` writes what is there
    .ok ({ g with
      objects := g.objects.modify c fun o ↦
        { o with producer := some call.head, consumer := call.tail } }, c)
  | none => do
    let o ← newConnector (some call.head) call.port call.tail call.method
    if call.port.isNaN then .error "table index is NaN"
    else
      let c := g.objects.length
      .ok ({ g with
        objects := g.objects ++ [o]
        outputs := g.setPorts call.head (g.ports call.head ++ [(call.port, c)]) }, c)

/-- One call after the other. -/
def connectAll (g : Draft S) : List (ConnectCall S) → Except String (Draft S)
  | [] => .ok g
  | call :: calls => do
    let (g, _) ← g.connect call
    g.connectAll calls

/-- `leda.graph`, before it visits its arguments. -/
def empty : Draft S where
  objects := []
  outputs := []
  conns := []
  start := none

/-- The connector of a port: the object and its fields. -/
def connector? (g : Draft S) (s : S) (k : Port) : Option (Nat × PortConnector S) :=
  (g.output? s k).bind fun c ↦ g.objects[c]?.map fun o ↦ (c, o)

/-- **The table of outputs of a graph**: a port occurs once, and its connector has this
producer and this port. -/
structure Sound (g : Draft S) : Prop where
  distinct : ∀ s, (g.ports s).Pairwise fun e e' ↦ e.1.same e'.1 = false
  keys : ∀ s, ∀ e ∈ g.ports s, e.1.isNaN = false
  objects : ∀ s, ∀ e ∈ g.ports s, ∃ o, g.objects[e.2]? = some o ∧ o.producer = some s ∧
    o.port = e.1
  nodup : (g.outputs.map Prod.fst).Nodup

section

variable {g g' : Draft S} {s s' : S} {k k' : Port} {c : Nat} {call : ConnectCall S}
variable {calls : List (ConnectCall S)} {o : PortConnector S}

theorem sound_empty : (empty : Draft S).Sound where
  distinct _ := Pairwise.nil
  keys _ _ h := by cases h
  objects _ _ h := by cases h
  nodup := Pairwise.nil

theorem ports_setPorts {t : List (Port × Nat)} :
    ({ g with outputs := g.setPorts s t } : Draft S).ports s' =
      if s' = s then t else g.ports s' := by
  unfold ports setPorts
  rw [List.lookup_append]
  by_cases hs : s' = s
  · subst hs
    have hnone : (g.outputs.filter fun e ↦ e.1 ≠ s').lookup s' = none := by
      rw [List.lookup_eq_none_iff]
      intro e he
      have hne : e.1 ≠ s' := by simpa using (mem_filter.1 he).2
      exact bne_iff_ne.2 hne.symm
    rw [hnone, if_pos rfl]
    simp
  · rw [if_neg hs]
    have hsame : (g.outputs.filter fun e ↦ e.1 ≠ s).lookup s' = g.outputs.lookup s' := by
      induction g.outputs with
      | nil => rfl
      | cons e l ih =>
          by_cases he : e.1 = s
          · have hne : (s' == e.1) = false := by simpa [he] using hs
            obtain ⟨s₁, t₁⟩ := e
            rw [filter_cons_of_neg (by simpa using he), ih, lookup_cons, hne]
          · rw [filter_cons_of_pos (by simpa using he)]
            obtain ⟨s₁, t₁⟩ := e
            rw [lookup_cons, lookup_cons, ih]
    rw [hsame]
    have hb : (s' == s) = false := by simpa using hs
    simp [lookup_cons, hb]

theorem lookup_mem_ports {t : List (Port × Nat)} (hn : (g.outputs.map Prod.fst).Nodup) :
    (s, t) ∈ g.outputs ↔ g.outputs.lookup s = some t := by
  rw [List.lookup_eq_some_iff]
  constructor
  · intro hm
    obtain ⟨l₁, l₂, heq⟩ := append_of_mem hm
    refine ⟨l₁, l₂, heq, fun e he ↦ ?_⟩
    rw [heq, map_append, nodup_append] at hn
    have hne := hn.2.2 e.1 (mem_map_of_mem he) s (by simp)
    exact bne_iff_ne.2 hne.symm
  · rintro ⟨l₁, l₂, heq, -⟩
    rw [heq]
    simp

namespace Sound

theorem eq_of_same (hg : g.Sound) {e e' : Port × Nat} (he : e ∈ g.ports s)
    (he' : e' ∈ g.ports s) (h : e.1.same e'.1 = true) : e = e' := by
  by_contra hne
  have hsymm : Std.Symm fun e e' : Port × Nat ↦ e.1.same e'.1 = false :=
    ⟨fun e e' h ↦ by rwa [Port.same_comm]⟩
  have hdiff := (hg.distinct s).forall he he' hne
  rw [h] at hdiff
  cases hdiff

theorem output?_eq_some (hg : g.Sound) :
    g.output? s k = some c ↔ ∃ k', (k', c) ∈ g.ports s ∧ k'.same k = true := by
  constructor
  · intro h
    obtain ⟨e, he, rfl⟩ := Option.map_eq_some_iff.1 h
    have hk : e.1.same k = true := find?_some (p := fun e : Port × Nat ↦ e.1.same k) he
    exact ⟨e.1, mem_of_find?_eq_some he, hk⟩
  · rintro ⟨k', hm, hk⟩
    obtain ⟨e, he⟩ : ∃ e, (g.ports s).find? (fun e ↦ e.1.same k) = some e :=
      Option.isSome_iff_exists.1 (find?_isSome.2 ⟨_, hm, hk⟩)
    have he' : e.1.same k = true := find?_some (p := fun e : Port × Nat ↦ e.1.same k) he
    have hsame : e.1.same k' = true := Port.same_trans he' (Port.same_symm hk)
    have heq := hg.eq_of_same (mem_of_find?_eq_some he) hm hsame
    rw [output?, he, heq]
    rfl

/-- What is at a port has this producer and this port. -/
theorem connector?_eq_some (hg : g.Sound) : g.connector? s k = some (c, o) ↔
    (∃ k', (k', c) ∈ g.ports s ∧ k'.same k = true) ∧ g.objects[c]? = some o := by
  rw [connector?, Option.bind_eq_some_iff]
  constructor
  · rintro ⟨c', hc, ho⟩
    obtain ⟨o', ho', heq⟩ := Option.map_eq_some_iff.1 ho
    obtain ⟨rfl, rfl⟩ := Prod.mk.inj heq
    exact ⟨hg.output?_eq_some.1 hc, ho'⟩
  · rintro ⟨hc, ho⟩
    exact ⟨c, hg.output?_eq_some.2 hc, by rw [ho]; rfl⟩

theorem producer_eq (hg : g.Sound) (h : g.connector? s k = some (c, o)) :
    o.producer = some s ∧ o.port.same k = true := by
  obtain ⟨⟨k', hm, hk⟩, ho⟩ := hg.connector?_eq_some.1 h
  obtain ⟨o', ho', hp, hport⟩ := hg.objects s _ hm
  obtain rfl := Option.some.inj (ho.symm.trans ho')
  exact ⟨hp, hport ▸ hk⟩

/-- One connector is at one port. -/
theorem port_unique (hg : g.Sound) {o' : PortConnector S} (h : g.connector? s k = some (c, o))
    (h' : g.connector? s' k' = some (c, o')) : s = s' ∧ k.same k' = true := by
  obtain ⟨hp, hk⟩ := hg.producer_eq h
  obtain ⟨hp', hk'⟩ := hg.producer_eq h'
  have ho := (hg.connector?_eq_some.1 h).2
  have ho' := (hg.connector?_eq_some.1 h').2
  obtain rfl := Option.some.inj (ho.symm.trans ho')
  exact ⟨Option.some.inj (hp.symm.trans hp'), Port.same_trans (Port.same_symm hk) hk'⟩

end Sound

/-- **What one call does**: the port has a connector to the tail, which has the type of the
call if it is new; other ports and connectors without a producer are as before. -/
structure Connected (g : Draft S) (call : ConnectCall S) (g' : Draft S) (c : Nat) : Prop where
  sound : g'.Sound
  conns : g'.conns = g.conns
  start : g'.start = g.start
  other : ∀ s k, call.At s k = false → g'.connector? s k = g.connector? s k
  here : ∀ s k, call.At s k = true → g'.connector? s k = some ((g.connector? s k).elim
    (c, ⟨⟨call.type, some call.head, call.tail⟩, call.port⟩)
    fun co ↦ (c, { co.2 with producer := some call.head, consumer := call.tail }))
  mute : ∀ (a : Nat) o, g.objects[a]? = some o → o.producer = none → g'.objects[a]? = some o

theorem At_iff : call.At s k = true ↔ call.head = s ∧ call.port.same k = true := by
  rw [ConnectCall.At, decide_eq_true_iff]

/-- The port had a connector. -/
theorem connected_old (hg : g.Sound) (hc : g.output? call.head call.port = some c) :
    Connected g call { g with
      objects := g.objects.modify c fun o ↦
        { o with producer := some call.head, consumer := call.tail } } c := by
  obtain ⟨k₁, hm, hk₁⟩ := hg.output?_eq_some.1 hc
  obtain ⟨o₁, ho₁, hp₁, hport₁⟩ := hg.objects _ _ hm
  have hset : ∀ a, (g.objects.modify c fun o ↦
      { o with producer := some call.head, consumer := call.tail })[a]? =
        if c = a then some { o₁ with producer := some call.head, consumer := call.tail }
        else g.objects[a]? := by
    intro a
    rw [getElem?_modify]
    split
    · rename_i hca
      subst hca
      rw [ho₁]
      rfl
    · simp
  -- the object is at no other port
  have hunique : ∀ s, ∀ e ∈ g.ports s, e.2 = c → s = call.head ∧ e.1 = k₁ := by
    intro s e he hec
    obtain ⟨o, ho, hp, hport⟩ := hg.objects s e he
    rw [hec, ho₁] at ho
    obtain rfl := Option.some.inj ho
    exact ⟨Option.some.inj (hp.symm.trans hp₁), hport.symm.trans hport₁⟩
  have hsound : Sound { g with
      objects := g.objects.modify c fun o ↦
        { o with producer := some call.head, consumer := call.tail } } := by
    refine ⟨hg.distinct, hg.keys, fun s e he ↦ ?_, hg.nodup⟩
    change ∃ o, (g.objects.modify c _)[e.2]? = some o ∧ _
    rw [hset]
    split
    · rename_i hce
      obtain ⟨rfl, hk⟩ := hunique s e he hce.symm
      exact ⟨_, rfl, rfl, hport₁.trans hk.symm⟩
    · exact hg.objects s e he
  refine ⟨hsound, rfl, rfl, fun s k hat ↦ ?_, fun s k hat ↦ ?_, fun a o ha hp ↦ ?_⟩
  · refine Option.ext fun co ↦ ?_
    obtain ⟨c', o⟩ := co
    rw [hsound.connector?_eq_some, hg.connector?_eq_some]
    refine and_congr_right fun hex ↦ ?_
    obtain ⟨k', hm', hk'⟩ := hex
    change (g.objects.modify c _)[c']? = some o ↔ _
    rw [hset, if_neg]
    rintro rfl
    obtain ⟨rfl, rfl⟩ := hunique s _ hm' rfl
    have hyes := At_iff.2 ⟨rfl, Port.same_trans (Port.same_symm hk₁) hk'⟩
    rw [hat] at hyes
    cases hyes
  · obtain ⟨rfl, hk⟩ := At_iff.1 hat
    have hold : g.connector? call.head k = some (c, o₁) :=
      hg.connector?_eq_some.2 ⟨⟨k₁, hm, Port.same_trans hk₁ hk⟩, ho₁⟩
    rw [hold]
    refine hsound.connector?_eq_some.2 ⟨⟨k₁, hm, Port.same_trans hk₁ hk⟩, ?_⟩
    change (g.objects.modify c _)[c]? = _
    rw [hset, if_pos rfl]
  · change (g.objects.modify c _)[a]? = _
    rw [hset, if_neg]
    · exact ha
    · rintro rfl
      rw [ho₁] at ha
      obtain rfl := Option.some.inj ha
      rw [hp₁] at hp
      cases hp

/-- The graph with a new connector at the port of the call. -/
def addPort (g : Draft S) (call : ConnectCall S) : Draft S :=
  { g with
    objects := g.objects ++ [⟨⟨call.type, some call.head, call.tail⟩, call.port⟩]
    outputs := g.setPorts call.head (g.ports call.head ++ [(call.port, g.objects.length)]) }

theorem ports_addPort (g : Draft S) (call : ConnectCall S) (s : S) : (g.addPort call).ports s =
    if s = call.head then g.ports call.head ++ [(call.port, g.objects.length)]
    else g.ports s := ports_setPorts

/-- The new port is at the end, the others are those of before. -/
theorem mem_ports_addPort {e : Port × Nat} : e ∈ (g.addPort call).ports s ↔
    e ∈ g.ports s ∨ s = call.head ∧ e = (call.port, g.objects.length) := by
  rw [ports_addPort]
  split
  · rename_i hs
    subst hs
    simp
  · rename_i hs
    simp [hs]

/-- The connectors of before have kept their objects. -/
theorem getElem?_addPort (hc : c < g.objects.length) :
    (g.addPort call).objects[c]? = g.objects[c]? := getElem?_append_left hc

theorem getElem?_addPort_self : (g.addPort call).objects[g.objects.length]? =
    some ⟨⟨call.type, some call.head, call.tail⟩, call.port⟩ := getElem?_concat_length

/-- The port was free. -/
theorem same_of_output?_eq_none (hc : g.output? call.head call.port = none) :
    ∀ e ∈ g.ports call.head, e.1.same call.port = false := by
  intro e he
  have h := find?_eq_none.1 (Option.map_eq_none_iff.1 hc) e he
  simpa using h

theorem Sound.lt_length {e : Port × Nat} (hg : g.Sound) (he : e ∈ g.ports s) :
    e.2 < g.objects.length := by
  obtain ⟨o, ho, -⟩ := hg.objects s e he
  exact (List.getElem?_eq_some_iff.1 ho).1

theorem Sound.addPort (hg : g.Sound) (hk : call.port.isNaN = false)
    (hc : g.output? call.head call.port = none) : (g.addPort call).Sound where
  distinct s := by
    rw [ports_addPort]
    split
    · refine pairwise_append.2 ⟨hg.distinct _, pairwise_singleton _ _, ?_⟩
      intro e he e' he'
      obtain rfl := mem_singleton.1 he'
      exact same_of_output?_eq_none hc e he
    · exact hg.distinct s
  keys s e he := by
    rcases mem_ports_addPort.1 he with he | ⟨-, rfl⟩
    · exact hg.keys s e he
    · exact hk
  objects s e he := by
    rcases mem_ports_addPort.1 he with he | ⟨rfl, rfl⟩
    · rw [getElem?_addPort (hg.lt_length he)]
      exact hg.objects s e he
    · exact ⟨_, getElem?_addPort_self, rfl, rfl⟩
  nodup := by
    change ((g.setPorts call.head _).map Prod.fst).Nodup
    rw [setPorts, map_append, nodup_append]
    refine ⟨hg.nodup.sublist (filter_sublist.map _), nodup_singleton _, ?_⟩
    intro s hs s' hs'
    obtain ⟨e, he, rfl⟩ := mem_map.1 hs
    obtain rfl := mem_singleton.1 hs'
    simpa using (mem_filter.1 he).2

/-- The port had none. -/
theorem connected_new (hg : g.Sound) (hk : call.port.isNaN = false)
    (hc : g.output? call.head call.port = none) :
    Connected g call (g.addPort call) g.objects.length where
  sound := hg.addPort hk hc
  conns := rfl
  start := rfl
  other s k hat := by
    refine Option.ext fun co ↦ ?_
    obtain ⟨c', o⟩ := co
    rw [(hg.addPort hk hc).connector?_eq_some, hg.connector?_eq_some]
    have hmem : (∃ k', (k', c') ∈ (g.addPort call).ports s ∧ k'.same k = true) ↔
        ∃ k', (k', c') ∈ g.ports s ∧ k'.same k = true := by
      refine exists_congr fun k' ↦ and_congr_left fun hk' ↦ ?_
      rw [mem_ports_addPort, or_iff_left]
      rintro ⟨rfl, heq⟩
      obtain ⟨rfl, -⟩ := Prod.mk.inj heq
      rw [At_iff.2 ⟨rfl, hk'⟩] at hat
      cases hat
    rw [hmem]
    refine and_congr_right fun hex ↦ ?_
    obtain ⟨k', hm', -⟩ := hex
    rw [getElem?_addPort (hg.lt_length hm')]
  here s k hat := by
    obtain ⟨rfl, hk'⟩ := At_iff.1 hat
    have hold : g.connector? call.head k = none := by
      rw [connector?, Option.bind_eq_none_iff]
      intro c hc'
      obtain ⟨k', hm', hkk⟩ := hg.output?_eq_some.1 hc'
      have hno := same_of_output?_eq_none hc _ hm'
      rw [Port.same_trans hkk (Port.same_symm hk')] at hno
      cases hno
    rw [hold]
    exact (hg.addPort hk hc).connector?_eq_some.2
      ⟨⟨call.port, mem_ports_addPort.2 (.inr ⟨rfl, rfl⟩), hk'⟩, getElem?_addPort_self⟩
  mute a o ha hp := by
    rwa [getElem?_addPort (List.getElem?_eq_some_iff.1 ha).1]

omit [DecidableEq S] in
theorem newConnector_eq_ok (ht : call.Typed) :
    newConnector (some call.head) call.port call.tail call.method =
      .ok ⟨⟨call.type, some call.head, call.tail⟩, call.port⟩ := by
  have htype : Connector.getType (S := S) ⟨call.type, some call.head, call.tail⟩ =
      .ok call.type := Connector.getType_eq_ok.2 ⟨ht, rfl⟩
  rw [newConnector]
  change Except.bind (Connector.getType ⟨call.type, some call.head, call.tail⟩) _ = _
  rw [htype]
  rfl

theorem connect_eq_ok (hg : g.Sound) (ht : call.Typed) (hk : call.port.isNaN = false) :
    ∃ g' c, g.connect call = .ok (g', c) ∧ Connected g call g' c := by
  cases hc : g.output? call.head call.port with
  | some c => exact ⟨_, c, by rw [connect, hc], connected_old hg hc⟩
  | none =>
      refine ⟨_, _, ?_, connected_new hg hk hc⟩
      rw [connect, hc, newConnector_eq_ok ht]
      change (if call.port.isNaN then _ else _) = _
      rw [hk]
      rfl

/-- A port that is NaN is an error. -/
theorem connect_error (hg : g.Sound) (ht : call.Typed) (hk : call.port.isNaN = true) :
    g.connect call = .error "table index is NaN" := by
  have hc : g.output? call.head call.port = none := by
    cases hc : g.output? call.head call.port with
    | none => rfl
    | some c =>
        obtain ⟨k', -, hsame⟩ := hg.output?_eq_some.1 hc
        rw [Port.isNaN_of_same (Port.same_symm hsame)] at hk
        cases hk
  rw [connect, hc, newConnector_eq_ok ht]
  change (if call.port.isNaN then _ else _) = _
  rw [hk]
  rfl

/-- The calls for a port. -/
def callsAt (calls : List (ConnectCall S)) (s : S) (k : Port) : List (ConnectCall S) :=
  calls.filter fun call ↦ call.At s k

/-- **What a sequence of calls does**: a port has the consumer of the last call for it, and the
type it had before, or the one of the first call. -/
structure ConnectedAll (g : Draft S) (calls : List (ConnectCall S)) (g' : Draft S) : Prop where
  sound : g'.Sound
  other : ∀ s k, callsAt calls s k = [] → g'.connector? s k = g.connector? s k
  here : ∀ s k first last, (callsAt calls s k).head? = some first →
    (callsAt calls s k).getLast? = some last → ∃ c o, g'.connector? s k = some (c, o) ∧
      o.consumer = last.tail ∧ o.type = (g.connector? s k).elim first.type fun co ↦ co.2.type

theorem connectedAll_cons {g₁ : Draft S} (h : Connected g call g₁ c)
    (h' : ConnectedAll g₁ calls g') : ConnectedAll g (call :: calls) g' := by
  refine ⟨h'.sound, fun s k hnil ↦ ?_, fun s k first last hfirst hlast ↦ ?_⟩
  · cases hat : call.At s k with
    | true =>
        rw [callsAt, filter_cons_of_pos hat] at hnil
        cases hnil
    | false =>
        rw [callsAt, filter_cons_of_neg (by simp [hat])] at hnil
        exact (h'.other s k hnil).trans (h.other s k hat)
  · cases hat : call.At s k with
    | false =>
        rw [callsAt, filter_cons_of_neg (by simp [hat])] at hfirst hlast
        rw [← h.other s k hat]
        exact h'.here s k first last hfirst hlast
    | true =>
        rw [callsAt, filter_cons_of_pos hat] at hfirst hlast
        obtain rfl := Option.some.inj hfirst
        have hhere := h.here s k hat
        -- the type after this call is the one that is kept
        have htype : ∃ co, g₁.connector? s k = some co ∧ co.2.consumer = call.tail ∧
            co.2.type = (g.connector? s k).elim call.type fun co ↦ co.2.type := by
          rw [hhere]
          cases g.connector? s k with
          | none => exact ⟨_, rfl, rfl, rfl⟩
          | some co => exact ⟨_, rfl, rfl, rfl⟩
        obtain ⟨co, hco, hcons, htype⟩ := htype
        cases hrest : callsAt calls s k with
        | nil =>
            rw [callsAt] at hrest
            rw [hrest, getLast?_singleton] at hlast
            obtain rfl := Option.some.inj hlast
            exact ⟨co.1, co.2, (h'.other s k hrest).trans hco, hcons, htype⟩
        | cons second rest =>
            have hlast' : (callsAt calls s k).getLast? = some last := by
              rw [callsAt] at hrest ⊢
              rw [hrest, getLast?_cons_cons] at hlast
              rwa [hrest]
            obtain ⟨c', o, ho, hcons', htype'⟩ :=
              h'.here s k second last (by rw [hrest]; rfl) hlast'
            rw [hco] at htype'
            exact ⟨c', o, ho, hcons', htype'.trans htype⟩

theorem connectAll_eq_ok (hg : g.Sound) (ht : ∀ call ∈ calls, call.Typed)
    (hk : ∀ call ∈ calls, call.port.isNaN = false) :
    ∃ g', g.connectAll calls = .ok g' ∧ ConnectedAll g calls g' := by
  induction calls generalizing g with
  | nil =>
      refine ⟨g, rfl, hg, fun _ _ _ ↦ rfl, fun _ _ _ _ hfirst ↦ ?_⟩
      cases hfirst
  | cons call calls ih =>
      obtain ⟨ht, htc⟩ := forall_mem_cons.1 ht
      obtain ⟨hk, hkc⟩ := forall_mem_cons.1 hk
      obtain ⟨g₁, c, hc, hconn⟩ := connect_eq_ok hg ht hk
      obtain ⟨g', hr, hall⟩ := ih hconn.sound htc hkc
      refine ⟨g', ?_, connectedAll_cons hconn hall⟩
      rw [connectAll, hc]
      exact hr

/-- The calls return exactly if no port is NaN. -/
theorem connectAll_isOk_iff (hg : g.Sound) (ht : ∀ call ∈ calls, call.Typed) :
    (∃ g', g.connectAll calls = .ok g') ↔ ∀ call ∈ calls, call.port.isNaN = false := by
  refine ⟨?_, fun hk ↦ (connectAll_eq_ok hg ht hk).imp fun _ ↦ And.left⟩
  induction calls generalizing g with
  | nil => simp
  | cons call calls ih =>
      rintro ⟨g', hr⟩
      obtain ⟨ht, htc⟩ := forall_mem_cons.1 ht
      rw [connectAll] at hr
      cases hk : call.port.isNaN with
      | true =>
          rw [connect_error hg ht hk] at hr
          cases hr
      | false =>
          obtain ⟨g₁, c, hc, hconn⟩ := connect_eq_ok hg ht hk
          rw [hc] at hr
          exact forall_mem_cons.2 ⟨hk, ih hconn.sound htc ⟨g', hr⟩⟩

/-! ## The last call -/

/-- **The last call for a port wins**: the connector that is found there is the one that the
call describes, and ports without a call are as they were. -/
def LastWins (g : Draft S) (calls : List (ConnectCall S)) (g' : Draft S) : Prop :=
  ∀ s k, (callsAt calls s k = [] → g'.connector? s k = g.connector? s k) ∧
    ∀ last, (callsAt calls s k).getLast? = some last →
      ∃ c o, g'.connector? s k = some (c, o) ∧ o.producer = some s ∧ o.port.same k = true ∧
        o.consumer = last.tail ∧ o.type = last.type

/-- The last call for a port gives the type that the port had before, or else the type of the
first call. -/
def TypesAgree (g : Draft S) (calls : List (ConnectCall S)) : Prop :=
  ∀ s k first last, (callsAt calls s k).head? = some first →
    (callsAt calls s k).getLast? = some last →
      last.type = (g.connector? s k).elim first.type fun co ↦ co.2.type

/-- **The last call wins completely exactly if** no port is NaN and for each port the type of
the last call is the one that the connector got when it was made. -/
theorem last_wins_iff (hg : g.Sound) (ht : ∀ call ∈ calls, call.Typed) :
    (∃ g', g.connectAll calls = .ok g' ∧ LastWins g calls g') ↔
      (∀ call ∈ calls, call.port.isNaN = false) ∧ TypesAgree g calls := by
  constructor
  · rintro ⟨g', hr, hw⟩
    have hk := (connectAll_isOk_iff hg ht).1 ⟨g', hr⟩
    obtain ⟨g'', hr', hall⟩ := connectAll_eq_ok hg ht hk
    obtain rfl := Except.ok.inj (hr.symm.trans hr')
    refine ⟨hk, fun s k first last hfirst hlast ↦ ?_⟩
    obtain ⟨c, o, ho, -, htype⟩ := hall.here s k first last hfirst hlast
    obtain ⟨c', o', ho', -, -, -, htype'⟩ := (hw s k).2 last hlast
    obtain ⟨-, rfl⟩ := Prod.mk.inj (Option.some.inj (ho.symm.trans ho'))
    exact htype'.symm.trans htype
  · rintro ⟨hk, hagree⟩
    obtain ⟨g', hr, hall⟩ := connectAll_eq_ok hg ht hk
    refine ⟨g', hr, fun s k ↦ ⟨hall.other s k, fun last hlast ↦ ?_⟩⟩
    obtain ⟨first, hfirst⟩ : ∃ first, (callsAt calls s k).head? = some first := by
      cases hc : callsAt calls s k with
      | nil =>
          rw [hc] at hlast
          cases hlast
      | cons first rest => exact ⟨first, rfl⟩
    obtain ⟨c, o, ho, hcons, htype⟩ := hall.here s k first last hfirst hlast
    obtain ⟨hp, hport⟩ := hall.sound.producer_eq ho
    exact ⟨c, o, ho, hp, hport, hcons, htype.trans (hagree s k first last hfirst hlast).symm⟩

/-- A port that is connected to a second stage instead, with a connector of the same type. -/
theorem last_wins_iff_twice : ∃ g', (empty : Draft Nat).connectAll
    [⟨0, none, 1, none⟩, ⟨0, none, 2, none⟩] = .ok g' ∧
      LastWins empty [⟨0, none, 1, none⟩, ⟨0, none, 2, none⟩] g' := by
  have htype : ∀ call ∈ [(⟨0, none, 1, none⟩ : ConnectCall Nat), ⟨0, none, 2, none⟩],
      call.type = "decoupled" := by simp [ConnectCall.type]
  refine (last_wins_iff sound_empty fun call hm ↦ ?_).2 ⟨by decide, fun s k first last hf hl ↦ ?_⟩
  · simp [ConnectCall.Typed, htype call hm]
  · rw [htype last (mem_of_mem_filter (mem_of_getLast? hl))]
    exact (htype first (mem_of_mem_filter (mem_of_mem_head? hf))).symm

/-- **The second connection of a port is not local**, although it was made so. -/
theorem not_last_wins : (empty : Draft Nat).Sound ∧
    (∀ call ∈ [(⟨0, none, 1, none⟩ : ConnectCall Nat), ⟨0, none, 1, some "local"⟩], call.Typed) ∧
    ¬ ∃ g', empty.connectAll [⟨0, none, 1, none⟩, ⟨0, none, 1, some "local"⟩] = .ok g' ∧
      LastWins empty [⟨0, none, 1, none⟩, ⟨0, none, 1, some "local"⟩] g' := by
  refine ⟨sound_empty, by simp [ConnectCall.Typed, ConnectCall.type], ?_⟩
  rintro ⟨g', hr, hw⟩
  cases hr
  obtain ⟨c, o, ho, -, -, -, htype⟩ := (hw 0 .one).2 ⟨0, none, 1, some "local"⟩ rfl
  cases ho
  revert htype
  decide

end

end Draft

end Leda.Graph
