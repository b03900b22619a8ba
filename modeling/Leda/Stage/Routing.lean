import Leda.Stage.Output
import Mathlib.Algebra.BigOperators.Group.List.Basic
import Mathlib.Algebra.GroupWithZero.Nat
import Mathlib.Data.List.Forall2
import Mathlib.Data.List.Rotate

/-!
# The routing stages

`Broadcast`, `RoundRobin` and `Switch` forward events to outputs of the instance.  They take the
table of an output and call its field `send` with a colon, where `leda.send` uses a dot.  So every
call they make has the table in front of the arguments of the event (`run_shifted`), and an event is
never forwarded unchanged: a stage does what it should exactly if it has nothing to forward
(`forwards_iff`).  What they pass cannot be sent at all (`log_not_sent`).

Apart from this the ports are right.  As long as its calls return, `RoundRobin` uses the ports in
turn, and any `n` consecutive events for `n` ports use each port once (`roundRobin_turns`).
-/

namespace Leda.Stage

open List Leda.Lua Leda.Event

/-- How the call of the function of a connector ends.  If it yields, the coroutine in which it was
called is given up, and the call returns when that is resumed. -/
inductive Ended
  | returned
  | raised (m : String)
  | yielded

/-- The surroundings: how a call ends, after the calls before it. -/
abbrev Ends := List Call → Call → Ended

/-! ## Broadcast -/

namespace Broadcast

/-- `stage.handler` over the rest of `pairs(leda.output)`: the calls made, and the error. -/
def handler (ends : Ends) (args : List Value) : List Output → List Call → List Call × Option String
  | [], log => (log, none)
  | connector :: rest, log =>
    let call := connector.sendSelf args
    match ends log call with
    | .raised m => (log ++ [call], some m)
    | .returned | .yielded => handler ends args rest (log ++ [call])

/-- The calls for a stream of events.  After an error an instance with the same outputs takes the
next event. -/
def run (ends : Ends) (out : List Output) (events : List (List Value)) : List Call :=
  events.foldl (fun log args ↦ (handler ends args out log).1) []

end Broadcast

/-! ## RoundRobin -/

namespace RoundRobin

/-- Where the coroutine `c` is: at `coroutine.yield()` for a port, in a connector's function that
has yielded, dead, or in a loop over no ports that does not end. -/
inductive Place
  | waiting (p : Output) (later : List Output)
  | inside (later : List Output)
  | dead
  | looping

/-- The loops, with these ports still to come in the inner one. -/
def turn (out : List Output) : List Output → Place
  | p :: later => .waiting p later
  | [] => match out with
    | p :: later => .waiting p later
    | [] => .looping

/-- `stage.init` -/
def init (out : List Output) : Place := turn out out

/-- `stage.handler`: `coroutine.resume(c,...)`, which returns the errors. -/
def handler (ends : Ends) (out : List Output) (s : Place × List Call) (args : List Value) :
    Place × List Call :=
  match s with
  | (.waiting p later, log) =>
    let call := p.sendSelf args
    match ends log call with
    | .returned => (turn out later, log ++ [call])
    | .yielded => (.inside later, log ++ [call])
    | .raised _ => (.dead, log ++ [call])
  -- the arguments are the results of the function that yielded
  | (.inside later, log) => (turn out later, log)
  | (.dead, log) => (.dead, log)
  | (.looping, log) => (.looping, log)

def run (ends : Ends) (out : List Output) (events : List (List Value)) : List Call :=
  (events.foldl (handler ends out) (init out, [])).2

end RoundRobin

/-! ## Switch -/

namespace Switch

/-- The parameters `output_key` and `...` of the handler. -/
def outputKey (args : List Value) : Value := args.head?.getD .nil

/-- `stage.handler` -/
def handler (tostring : Value → String) (ends : Ends) (out : List Output) (args : List Value)
    (log : List Call) : List Call × Option String :=
  match getOutput out (outputKey args) with
  | .ok c =>
    let call := c.sendSelf args.tail
    match ends log call with
    | .raised m => (log ++ [call], some m)
    | .returned | .yielded => (log ++ [call], none)
  | .error _ => (log, some s!"Output '{tostring (outputKey args)}' does not exist")

def run (tostring : Value → String) (ends : Ends) (out : List Output)
    (events : List (List Value)) : List Call :=
  events.foldl (fun log args ↦ (handler tostring ends out args log).1) []

end Switch

/-! ## What they should do -/

/-- The routing stages. -/
inductive Routing
  | broadcast
  | roundRobin
  | switch
deriving DecidableEq, Repr

namespace Routing

/-- The calls that a stage makes for a stream of events. -/
def run (tostring : Value → String) (ends : Ends) (out : List Output)
    (events : List (List Value)) : Routing → List Call
  | .broadcast => Broadcast.run ends out events
  | .roundRobin => RoundRobin.run ends out events
  | .switch => Switch.run tostring ends out events

/-- The ports for `n` events, one for each: as many consecutive ones as there are outputs are all
of them. -/
structure Turns (out : List Output) (n : Nat) (ports : List Output) : Prop where
  length : ports.length = n
  subset : ports ⊆ out
  window : ∀ i, i + out.length ≤ n → (ports.drop i).take out.length ~ out

/-- **The events are forwarded unchanged**: by `Broadcast` once on every port, by `RoundRobin` on
one port in turn, and by `Switch` as `leda.send` would with the key. -/
def Forwards (tostring : Value → String) (out : List Output) (events : List (List Value))
    (log : List Call) : Routing → Prop
  | .broadcast => log ~ events.flatMap fun args ↦ out.map (·.send args)
  | .roundRobin => ∃ ports, Turns out events.length ports ∧ log = zipWith Output.send ports events
  | .switch => log = events.filterMap fun args ↦
      (Stage.send tostring out (keyOr (Switch.outputKey args)) args.tail).toOption

/-- The arguments to be sent, for each call. -/
def wanted (out : List Output) (events : List (List Value)) : Routing → List (List Value)
  | .broadcast => events.flatMap fun args ↦ out.map fun _ ↦ args
  | .roundRobin => events
  | .switch => events.filterMap fun args ↦
      (lookup out (keyOr (Switch.outputKey args))).map fun _ ↦ args.tail

/-- **There is nothing to forward.** -/
def Idle (out : List Output) (events : List (List Value)) : Routing → Prop
  | .broadcast => events = [] ∨ out = []
  | .roundRobin => events = []
  | .switch => ∀ args ∈ events, lookup out (keyOr (Switch.outputKey args)) = none

end Routing

/-! ## What is added -/

section

variable {ends : Ends} {tostring : Value → String} {out cs : List Output} {c : Output}
variable {args : List Value} {events : List (List Value)} {log new : List Call} {call : Call}
variable {s : Routing}

/-- The call of an output with its table in front of the arguments. -/
def Extra (out : List Output) (call : Call) (args : List Value) : Prop :=
  ∃ c ∈ out, call = c.sendSelf args

/-- The calls are some of those wanted, in order, but each with the table in front. -/
abbrev Shifted (out : List Output) : List Call → List (List Value) → Prop :=
  SublistForall₂ (Extra out)

theorem Shifted.append {es es' : List (List Value)} {log' : List Call} (h : Shifted out log es)
    (h' : Shifted out log' es') : Shifted out (log ++ log') (es ++ es') := by
  obtain ⟨l, hl, hs⟩ := sublistForall₂_iff.1 h
  obtain ⟨l', hl', hs'⟩ := sublistForall₂_iff.1 h'
  exact sublistForall₂_iff.2 ⟨l ++ l', rel_append hl hl', hs.append hs'⟩

theorem Shifted.single (hc : c ∈ out) (args : List Value) :
    Shifted out [c.sendSelf args] [args] :=
  .cons ⟨c, hc, rfl⟩ .nil

/-- Every call has one argument too many. -/
theorem sum_length_of_extra {es : List (List Value)} (h : Forall₂ (Extra out) log es) :
    ((log.map Call.args).map length).sum = (es.map length).sum + es.length := by
  induction h with
  | nil => rfl
  | cons hc _ ih =>
      obtain ⟨c, -, rfl⟩ := hc
      simp only [map_cons, sum_cons, length_cons, ih, Output.sendSelf, Output.send]
      omega

/-- **If the arguments are those wanted, none were.** -/
theorem Shifted.eq_nil {es : List (List Value)} (h : Shifted out log es)
    (hp : log.map Call.args ~ es) : es = [] := by
  obtain ⟨l, hl, hs⟩ := sublistForall₂_iff.1 h
  have hlen : log.length = es.length := by simpa using hp.length_eq
  obtain rfl := hs.eq_of_length (by rw [← hlen, hl.length_eq])
  have hsum := sum_length_of_extra hl
  rw [(hp.map length).sum_eq] at hsum
  exact length_eq_zero_iff.1 (by omega)

theorem Shifted.eq_nil_of_nil (h : Shifted out log []) : log = [] := by
  cases h
  rfl

theorem Shifted.sendSelf_of_mem {es : List (List Value)} (h : Shifted out log es)
    (hcall : call ∈ log) : ∃ c ∈ out, ∃ args, call = c.sendSelf args := by
  induction h with
  | nil => cases hcall
  | cons hc _ ih =>
      obtain rfl | hcall := mem_cons.1 hcall
      · obtain ⟨c, hmem, rfl⟩ := hc
        exact ⟨c, hmem, _, rfl⟩
      · exact ih hcall
  | cons_right _ ih => exact ih hcall

/-- A run of steps, if each one adds such calls to the log. -/
theorem foldl_shifted {σ : Type} {f : σ → List Value → σ} (log : σ → List Call) (I : σ → Prop)
    {w : List Value → List (List Value)} {s : σ}
    (hf : ∀ s args, I s → I (f s args) ∧ ∃ new, log (f s args) = log s ++ new ∧
      Shifted out new (w args)) (hs : I s) (hlog : log s = []) (events : List (List Value)) :
    Shifted out (log (events.foldl f s)) (events.flatMap w) := by
  suffices h : ∀ es s, I s → Shifted out (log s) es →
      Shifted out (log (events.foldl f s)) (es ++ events.flatMap w) from
    h [] s hs (hlog ▸ .nil)
  clear hs hlog s
  induction events with
  | nil =>
      intro es s _ h
      simpa using h
  | cons args events ih =>
      intro es s hs h
      obtain ⟨hi, new, hlog, hn⟩ := hf s args hs
      rw [foldl_cons, flatMap_cons, ← append_assoc]
      exact ih _ _ hi (hlog ▸ h.append hn)

/-- The handler of `Broadcast` calls the outputs up to the first error. -/
theorem Broadcast.handler_shifted (hcs : cs ⊆ out) (log : List Call) :
    ∃ new, (Broadcast.handler ends args cs log).1 = log ++ new ∧
      Shifted out new (cs.map fun _ ↦ args) := by
  induction cs generalizing log with
  | nil => exact ⟨[], by simp [handler], .nil⟩
  | cons c cs ih =>
      obtain ⟨hc, hcs⟩ := cons_subset.1 hcs
      simp only [handler]
      split
      · exact ⟨[c.sendSelf args], rfl, .cons ⟨c, hc, rfl⟩ .nil⟩
      all_goals
        obtain ⟨new, hlog, hn⟩ := ih hcs (log ++ [c.sendSelf args])
        exact ⟨c.sendSelf args :: new, by rw [hlog]; simp, .cons ⟨c, hc, rfl⟩ hn⟩

/-- The coroutine waits for outputs. -/
def RoundRobin.Place.Among (out : List Output) : Place → Prop
  | .waiting p later => p ∈ out ∧ later ⊆ out
  | .inside later => later ⊆ out
  | .dead | .looping => True

theorem RoundRobin.among_turn (h : cs ⊆ out) : (turn out cs).Among out := by
  cases cs with
  | cons p later => exact cons_subset.1 h
  | nil =>
      cases out with
      | nil => trivial
      | cons p later => exact ⟨mem_cons_self, subset_cons_self ..⟩

/-- The handler of `RoundRobin` calls one output, or none. -/
theorem RoundRobin.handler_shifted (s : Place × List Call) (args : List Value)
    (hs : s.1.Among out) : (handler ends out s args).1.Among out ∧
      ∃ new, (handler ends out s args).2 = s.2 ++ new ∧ Shifted out new [args] := by
  obtain ⟨place, log⟩ := s
  cases place with
  | waiting p later =>
      obtain ⟨hp, hl⟩ := hs
      simp only [handler]
      split
      · exact ⟨among_turn hl, _, rfl, .single hp args⟩
      · exact ⟨hl, _, rfl, .single hp args⟩
      · exact ⟨trivial, _, rfl, .single hp args⟩
  | inside later => exact ⟨among_turn hs, [], (append_nil _).symm, .nil⟩
  | dead | looping => exact ⟨trivial, [], (append_nil _).symm, .nil⟩

/-- The handler of `Switch` calls the output that is named, if there is one. -/
theorem Switch.handler_shifted (log : List Call) (args : List Value) :
    ∃ new, (Switch.handler tostring ends out args log).1 = log ++ new ∧ Shifted out new
      ((lookup out (keyOr (Switch.outputKey args))).map fun _ ↦ args.tail).toList := by
  simp only [handler, getOutput]
  cases hl : lookup out (keyOr (outputKey args)) with
  | none => exact ⟨[], by simp, .nil⟩
  | some c =>
      have hc : c ∈ out := mem_of_find?_eq_some hl
      refine ⟨[c.sendSelf args.tail], ?_, .single hc _⟩
      simp only
      split <;> rfl

theorem Broadcast.run_shifted (ends : Ends) (out : List Output) (events : List (List Value)) :
    Shifted out (run ends out events) (Routing.broadcast.wanted out events) :=
  foldl_shifted (fun log ↦ log) (fun _ ↦ True) (w := fun args ↦ out.map fun _ ↦ args)
    (fun log _ _ ↦ ⟨trivial, handler_shifted (Subset.refl out) log⟩) trivial rfl events

theorem RoundRobin.run_shifted (ends : Ends) (out : List Output) (events : List (List Value)) :
    Shifted out (run ends out events) (Routing.roundRobin.wanted out events) := by
  have h := foldl_shifted Prod.snd (fun s ↦ s.1.Among out) (f := handler ends out)
    handler_shifted (s := (init out, [])) (among_turn (Subset.refl out)) rfl events
  rwa [flatMap_singleton'] at h

theorem Switch.run_shifted (tostring : Value → String) (ends : Ends) (out : List Output)
    (events : List (List Value)) :
    Shifted out (run tostring ends out events) (Routing.switch.wanted out events) := by
  rw [Routing.wanted, filterMap_eq_flatMap_toList]
  exact foldl_shifted (fun log ↦ log) (fun _ ↦ True)
    (fun log args _ ↦ ⟨trivial, handler_shifted log args⟩) trivial rfl events

/-- **The calls of a run** are some of those wanted, in order, but each with the table of an output
in front of the arguments. -/
theorem run_shifted (tostring : Value → String) (ends : Ends) (out : List Output)
    (events : List (List Value)) (s : Routing) :
    Shifted out (s.run tostring ends out events) (s.wanted out events) := by
  cases s with
  | broadcast => exact Broadcast.run_shifted ends out events
  | roundRobin => exact RoundRobin.run_shifted ends out events
  | switch => exact Switch.run_shifted tostring ends out events

/-! ## Forwarding -/

namespace Routing

theorem wanted_eq_nil : s.wanted out events = [] ↔ s.Idle out events := by
  cases s with
  | broadcast =>
      simp only [wanted, Idle, flatMap_eq_nil_iff, map_eq_nil_iff]
      cases events with
      | nil => simp
      | cons args events => simpa using fun h _ _ ↦ h
  | roundRobin => rfl
  | switch => simp [wanted, Idle]

/-- What is forwarded has the arguments that are wanted. -/
theorem Forwards.map_args (h : s.Forwards tostring out events log) :
    log.map Call.args ~ s.wanted out events := by
  cases s with
  | broadcast => simpa [wanted, map_flatMap, Function.comp_def, Output.send] using h.map Call.args
  | roundRobin =>
      obtain ⟨ports, ht, rfl⟩ := h
      rw [map_zipWith]
      change zipWith (fun _ args ↦ args) ports events ~ events
      rw [← map_uncurry_zip_eq_zipWith]
      refine .of_eq ?_
      exact map_snd_zip ht.length.ge
  | switch =>
      obtain rfl := h
      refine .of_eq ?_
      rw [map_filterMap]
      refine filterMap_congr fun args _ ↦ ?_
      unfold Stage.send
      cases lookup out (keyOr (Switch.outputKey args)) <;> rfl

/-- With nothing to forward, no call is as it should be. -/
theorem Idle.forwards_nil (h : s.Idle out events) : s.Forwards tostring out events [] := by
  cases s with
  | broadcast =>
      obtain rfl | rfl := h
      · exact .nil
      · simp [Forwards]
  | roundRobin =>
      obtain rfl := h
      refine ⟨[], ⟨rfl, by simp, fun i hi ↦ ?_⟩, rfl⟩
      obtain rfl := length_eq_zero_iff.1 (Nat.add_eq_zero_iff.1 (Nat.le_zero.1 hi)).2
      rfl
  | switch =>
      refine (filterMap_eq_nil_iff.2 fun args hargs ↦ ?_).symm
      rw [Stage.send, h args hargs]
      rfl

/-- **A stage forwards the events unchanged exactly if** there is nothing to forward. -/
theorem forwards_iff (tostring : Value → String) (ends : Ends) (out : List Output)
    (events : List (List Value)) (s : Routing) :
    s.Forwards tostring out events (s.run tostring ends out events) ↔ s.Idle out events := by
  have hrun := run_shifted tostring ends out events s
  constructor
  · intro h
    exact wanted_eq_nil.1 (hrun.eq_nil h.map_args)
  · intro h
    rw [wanted_eq_nil.2 h] at hrun
    rw [hrun.eq_nil_of_nil]
    exact h.forwards_nil

/-- An output of an instance. -/
def port : Output := ⟨.ofNat 1, .emmit, 7, 8, 0⟩

/-- An event for it, also by its key. -/
def event : List Value := [.ofNat 1, .boolean true]

/-- The calls of a stage for this event. -/
def lone : Routing → List Call := run (fun _ ↦ "1") (fun _ _ ↦ .returned) [port] [event]

/-- **The table of the output is passed**, even if the call returns. -/
theorem not_forwards_one :
    ((lone .broadcast).map Call.args = [[.object 0, .ofNat 1, .boolean true]] ∧
      ¬ Forwards (fun _ ↦ "1") [port] [event] (lone .broadcast) .broadcast) ∧
    ((lone .roundRobin).map Call.args = [[.object 0, .ofNat 1, .boolean true]] ∧
      ¬ Forwards (fun _ ↦ "1") [port] [event] (lone .roundRobin) .roundRobin) ∧
    (lone .switch).map Call.args = [[.object 0, .boolean true]] ∧
      ¬ Forwards (fun _ ↦ "1") [port] [event] (lone .switch) .switch := by
  refine ⟨⟨by decide, fun h ↦ ?_⟩, ⟨by decide, fun h ↦ ?_⟩, by decide, fun h ↦ ?_⟩
  all_goals
    have hargs := h.map_args
    revert hargs
    decide

end Routing

/-! ## The ports -/

/-- The port after this one is the next, or the first one again. -/
theorem RoundRobin.turn_waiting {used later : List Output} {p : Output}
    (hout : used ++ p :: later = out) : ∃ used' q later', turn out later = .waiting q later' ∧
      used' ++ q :: later' = out ∧ used'.length = (used.length + 1) % out.length := by
  have hlen : out.length = used.length + (later.length + 1) := by rw [← hout]; simp
  cases later with
  | cons q later =>
      refine ⟨used ++ [p], q, later, rfl, by rw [← hout]; simp, ?_⟩
      rw [Nat.mod_eq_of_lt (by rw [hlen, length_cons]; omega)]
      simp
  | nil =>
      -- the inner loop ends, and the outer one starts it again
      rw [length_nil, Nat.zero_add] at hlen
      cases out with
      | nil => cases hlen
      | cons q later => exact ⟨[], q, later, rfl, rfl, by rw [← hlen, Nat.mod_self]; rfl⟩

/-- While the calls return, `RoundRobin` goes through the ports. -/
theorem RoundRobin.foldl_waiting (hends : ∀ log call, ends log call = .returned)
    (used : List Output) (p : Output) (later : List Output) (hout : used ++ p :: later = out)
    (log : List Call) (events : List (List Value)) : ∃ ports, ports.length = events.length ∧
      (∀ k < events.length, ports[k]? = out[(used.length + k) % out.length]?) ∧
      (events.foldl (handler ends out) (.waiting p later, log)).2 =
        log ++ zipWith Output.sendSelf ports events := by
  induction events generalizing used p later log with
  | nil => exact ⟨[], rfl, by simp, by simp⟩
  | cons args events ih =>
      obtain ⟨used', q, later', hturn, hout', hused⟩ := turn_waiting hout
      obtain ⟨ports, hl, hports, hlog⟩ := ih used' q later' hout' (log ++ [p.sendSelf args])
      refine ⟨p :: ports, by rw [length_cons, hl, length_cons], fun k hk ↦ ?_, ?_⟩
      · cases k with
        | zero =>
            have hlt : used.length < out.length := by rw [← hout]; simp
            rw [Nat.add_zero, Nat.mod_eq_of_lt hlt, ← hout]
            simp
        | succ k =>
            rw [getElem?_cons_succ, hports k (Nat.lt_of_succ_lt_succ hk), hused, Nat.mod_add_mod,
              Nat.add_assoc, Nat.add_comm 1]
      · rw [foldl_cons]
        simp only [handler, hends]
        rw [hturn, hlog, append_assoc, singleton_append, zipWith_cons_cons]

/-- A list that goes through the ports in turn uses each one once in any round. -/
theorem Routing.turns_of_getElem? {n : Nat} {ports : List Output} (hl : ports.length = n)
    (hports : ∀ k < n, ports[k]? = out[k % out.length]?) : Turns out n ports where
  length := hl
  subset p hp := by
    obtain ⟨k, hk, rfl⟩ := getElem_of_mem hp
    have := hports k (hl ▸ hk)
    rw [getElem?_eq_getElem hk] at this
    exact mem_of_getElem? this.symm
  window i hi := by
    have hrot : (ports.drop i).take out.length = out.rotate i := by
      refine ext_getElem? fun k ↦ ?_
      by_cases hk : k < out.length
      · rw [getElem?_take_of_lt hk, getElem?_drop, getElem?_rotate hk, hports _ (by omega),
          Nat.add_comm]
      · rw [getElem?_eq_none (by simp; omega), getElem?_eq_none (by simp; omega)]
    rw [hrot]
    exact rotate_perm out i

/-- **While its calls return, `RoundRobin` uses the ports in turn**, but with the table of the port
in front of the arguments. -/
theorem roundRobin_turns (hends : ∀ log call, ends log call = .returned) (hout : out ≠ [])
    (events : List (List Value)) : ∃ ports, Routing.Turns out events.length ports ∧
      RoundRobin.run ends out events = zipWith Output.sendSelf ports events := by
  cases out with
  | nil => exact absurd rfl hout
  | cons p later =>
      obtain ⟨ports, hl, hports, hlog⟩ :=
        RoundRobin.foldl_waiting hends [] p later rfl [] events
      refine ⟨ports, Routing.turns_of_getElem? hl (by simpa using hports), ?_⟩
      rw [nil_append] at hlog
      exact hlog

/-! ## What can be sent -/

/-- **No call of a routing stage can be sent**, on any of the three routes, when the outputs were
made in a heap with the two C functions. -/
theorem run_not_sent {fs : CFunctions} {cs : List (Value × Connector)} {h new : Heap} (S : Sender)
    (decodes : List UInt8 → Bool)
    (hfs : ∀ f, ∃ g, h[fs.ref f]? = some (.function g) ∧ g.what ≠ .lua)
    (hout : out ⊆ (loadOutputs fs cs h).1) (hheap : S.heap = (loadOutputs fs cs h).2 ++ new)
    (hcall : call ∈ s.run tostring ends out events) :
    (∀ e, (luaTransfer S decodes).copy call.args ≠ .ok e) ∧
    (∀ e, (luaTransfer S decodes).extract call.args ≠ .ok e) ∧
    ∀ b, (luaTransfer S decodes).remote call.args ≠ .ok b := by
  obtain ⟨c, hc, args, rfl⟩ := (run_shifted tostring ends out events s).sendSelf_of_mem hcall
  obtain ⟨made, hmade⟩ := loadOutputs_heap fs cs h
  obtain ⟨g, hg, hw⟩ := hfs c.func
  have hload : Loaded fs c S.heap := hheap ▸ (loaded_of_mem (hout hc)).append
  refine self_not_sent S decodes args hload ?_ hw
  rw [hheap, hmade, append_assoc, getElem?_append_left (List.getElem?_eq_some_iff.1 hg).1, hg]

end

end Leda.Stage
