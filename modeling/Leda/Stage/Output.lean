import Leda.Event.Transfer
import Leda.Lua.Table

/-!
# The outputs of an instance

When an instance is created, `instance.lua` makes a table for each output port of its stage.
The field `send` of the table is a function that calls `emmit` or `cohort` with the consumer and
the connector in front of its own arguments, and the table is entered in `leda.output`.  So
`leda.send(key,...)` calls `leda.output[key].send(...)`, with a dot.

Called with a colon the function gets the table itself as its first argument, and passes it on.
That table cannot be sent: the function in it has `emmit` or `cohort` among its upvalues, which
are C functions (`spoiled_self`).  So no route takes such an event (`self_not_sent`).
-/

namespace Leda.Stage

open List Leda.Lib Leda.Lua Leda.Event

/-- The function of a connector: `__emmit` or `__cohort`. -/
inductive Sendf
  | emmit
  | cohort
deriving DecidableEq, Repr

/-- An entry of `stage.__output`. -/
structure Connector where
  /-- `connector.__sendf` -/
  sendf : List UInt8
  /-- `connector.__id` -/
  id : Nat
  /-- `connector.__consumer` -/
  consumer : Nat
deriving DecidableEq

/-- An entry of `leda.output`: the key, the upvalues of the field `send`, and the table. -/
structure Output where
  key : Value
  func : Sendf
  consumer : Nat
  id : Nat
  ref : Nat
deriving DecidableEq

/-- A call of `func(consumer,id,...)`. -/
structure Call where
  func : Sendf
  consumer : Nat
  id : Nat
  args : List Value
deriving DecidableEq

namespace Output

/-- `c.send(...)` -/
def send (c : Output) (args : List Value) : Call := ⟨c.func, c.consumer, c.id, args⟩

/-- `c:send(...)` -/
def sendSelf (c : Output) (args : List Value) : Call := c.send (.object c.ref :: args)

end Output

/-- The C functions of an instance. -/
structure CFunctions where
  emmit : Nat
  cohort : Nat

/-- Where a function is. -/
def CFunctions.ref (fs : CFunctions) : Sendf → Nat
  | .emmit => fs.emmit
  | .cohort => fs.cohort

/-- `connector.__sendf=="cohort"` -/
def Connector.func (c : Connector) : Sendf :=
  if c.sendf = ascii "cohort" then .cohort else .emmit

/-- The table `c` and the function in its field `send`, for a heap of this size. -/
def outputObjects (fs : CFunctions) (c : Connector) (size : Nat) : List Object :=
  [.table { entries := [(.string (ascii "send"), .object (size + 1))] },
    .function { what := .lua, upvalues := [("func", .object (fs.ref c.func)),
      ("consumer", .ofNat c.consumer), ("id", .ofNat c.id)] }]

/-- The loop of `instance.lua` over `stage.__output`. -/
def loadOutputs (fs : CFunctions) : List (Value × Connector) → Heap → List Output × Heap
  | [], h => ([], h)
  | (key, c) :: rest, h =>
    let (out, h') := loadOutputs fs rest (h ++ outputObjects fs c h.length)
    (⟨key, c.func, c.consumer, c.id, h.length⟩ :: out, h')

/-- `leda.output[key]` -/
def lookup (out : List Output) (key : Value) : Option Output := out.find? fun c ↦ rawEq c.key key

/-- `key or 1` -/
def keyOr (key : Value) : Value := if key = .nil ∨ key = .boolean false then .ofNat 1 else key

/-- `leda.get_output` -/
def getOutput (out : List Output) (key : Value) : Except String Output :=
  match lookup out (keyOr key) with
  | some c => .ok c
  | none => .error "Output key not defined"

/-- `leda.send`: the call that it makes, or its error. -/
def send (tostring : Value → String) (out : List Output) (key : Value) (args : List Value) :
    Except String Call :=
  match lookup out key with
  | none => .error s!"Output key not defined: {tostring key}"
  | some c => .ok (c.send args)

/-! ## What is passed with a colon -/

section

variable {fs : CFunctions} {cs : List (Value × Connector)} {h : Heap} {c : Output}

/-- The table of an output is in the heap, and its function has `emmit` or `cohort` inside. -/
structure Loaded (fs : CFunctions) (c : Output) (h : Heap) : Prop where
  table : h[c.ref]? = some (.table
    { entries := [(.string (ascii "send"), .object (c.ref + 1))] })
  function : ∃ f, h[c.ref + 1]? = some (.function f) ∧
    ("func", .object (fs.ref c.func)) ∈ f.upvalues

theorem Loaded.append {new : List Object} (hc : Loaded fs c h) : Loaded fs c (h ++ new) := by
  obtain ⟨f, hf, hu⟩ := hc.function
  exact ⟨by rw [getElem?_append_left (List.getElem?_eq_some_iff.1 hc.table).1, hc.table],
    f, by rw [getElem?_append_left (List.getElem?_eq_some_iff.1 hf).1, hf], hu⟩

/-- The heap only grows. -/
theorem loadOutputs_heap (fs : CFunctions) (cs : List (Value × Connector)) (h : Heap) :
    ∃ new, (loadOutputs fs cs h).2 = h ++ new := by
  induction cs generalizing h with
  | nil => exact ⟨[], by simp [loadOutputs]⟩
  | cons kc cs ih =>
      obtain ⟨new, hnew⟩ := ih (h ++ outputObjects fs kc.2 h.length)
      exact ⟨outputObjects fs kc.2 h.length ++ new, by simp [loadOutputs, hnew]⟩

/-- **The loop makes what it enters.** -/
theorem loaded_of_mem (hc : c ∈ (loadOutputs fs cs h).1) : Loaded fs c (loadOutputs fs cs h).2 := by
  induction cs generalizing h with
  | nil => cases hc
  | cons kc cs ih =>
      simp only [loadOutputs, mem_cons] at hc ⊢
      obtain rfl | hc := hc
      · obtain ⟨new, hnew⟩ := loadOutputs_heap fs cs (h ++ outputObjects fs kc.2 h.length)
        rw [hnew]
        refine Loaded.append ⟨?_, ?_⟩
        · simp [outputObjects]
        · exact ⟨_, by simp [outputObjects]; rfl, by simp⟩
      · exact ih hc

/-- **The table of an output cannot be sent**: the function in it holds a C function. -/
theorem spoiled_self {args : List Value} {f : Closure} (lua52 : Bool) (hc : Loaded fs c h)
    (hf : h[fs.ref c.func]? = some (.function f)) (hw : f.what ≠ .lua) :
    Spoiled lua52 h (.object c.ref :: args) := by
  obtain ⟨g, hg, hu⟩ := hc.function
  have hfollowed : ("func", .object (fs.ref c.func)) ∈ followed lua52 g := by
    refine mem_filter.2 ⟨hu, ?_⟩
    have hname : ("func" : String).startsWith "_ENV" = false := by decide +kernel
    simp [hname]
  have hsend : Inside lua52 h c.ref (c.ref + 1) := by
    refine ⟨(List.getElem?_eq_some_iff.1 hg).1, ?_⟩
    rw [hc.table]
    exact ⟨rfl, _, mem_singleton.2 rfl, .inr rfl⟩
  have hfunc : Inside lua52 h (c.ref + 1) (fs.ref c.func) := by
    refine ⟨(List.getElem?_eq_some_iff.1 hf).1, ?_⟩
    rw [hg]
    exact ⟨_, hfollowed, rfl⟩
  refine ⟨c.ref, fs.ref c.func, mem_cons_self, (List.getElem?_eq_some_iff.1 hc.table).1,
    .head hsend (.single hfunc), ?_⟩
  simpa [Unsendable, hf] using hw

end

/-- **What is called with a colon is not sent**, on any of the three routes, with the C functions
of the instance in the heap. -/
theorem self_not_sent {fs : CFunctions} {c : Output} {f : Closure} (S : Sender)
    (decodes : List UInt8 → Bool) (args : List Value) (hc : Loaded fs c S.heap)
    (hf : S.heap[fs.ref c.func]? = some (.function f)) (hw : f.what ≠ .lua) :
    (∀ e, (luaTransfer S decodes).copy (c.sendSelf args).args ≠ .ok e) ∧
    (∀ e, (luaTransfer S decodes).extract (c.sendSelf args).args ≠ .ok e) ∧
    ∀ b, (luaTransfer S decodes).remote (c.sendSelf args).args ≠ .ok b :=
  luaTransfer_spoiled decodes (spoiled_self S.lua52 hc hf hw)

end Leda.Stage
