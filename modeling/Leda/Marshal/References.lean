import Leda.Lib.Traced
import Leda.Marshal.Visit

/-!
# Back-references

`Visit.eval` is the decoder on the tree of a visit, which also says which object it takes
each value for, as far as it gets; without that it is the decoder (`Visit.val_eval`).

`KeepsReferences` is what back-references are for: the number of each is the one under which
the decoder has entered the copy of that object, and all references to one object become one
value.  **It holds exactly if** the numberings are balanced and the closures of a table with
a `__persist` hook that is met several times rebuild one object (`keepsReferences_iff`).  The
proof follows the decoder: as long as the numbers are right, whatever it takes for an object
is what it has entered for it (`Visit.follows`).

A table with a `__persist` hook before a table that is shared already breaks it
(`not_keepsReferences`): the decoder numbers what was rebuilt, the encoder has not.
-/

namespace Leda.Marshal

open Leda.Lib Leda.Lua

/-- A value that the decoder takes for an object. -/
structure Reference where
  object : Nat
  value : Value
  /-- The value is entered, and not found under a number. -/
  entered : Bool
deriving Repr, DecidableEq

mutual

/-- `mar_decode_value` on the tree of a visit, and what it takes for the objects. -/
def Visit.eval (L : Lua) : Visit → Dec → Traced Reference (Value × Dec)
  | .data c, d => .lift (c.1.eval L d)
  | .again _ a n, d =>
      let v := d.get (BitVec.ofNat 32 n)
      .step ⟨a, v, false⟩ (v, d)
  | .table a es, d => do
      let v := .object d.heap.length
      let d₁ ← .step ⟨a, v, true⟩ (d.newtable.enter v)
      let d' ← es.eval L d.heap.length d₁
      pure (v, d')
  | .function a dump ups, d => do
      let f := L.loadFunction dump d
      let d₁ ← .step ⟨a, f.1, true⟩ f.2
      let d' ← ups.eval L d₁.heap.length d₁.newtable
      let h ← .lift (L.setUpvalues f.1 (entriesOf d'.heap d₁.heap.length) d'.heap)
      pure (f.1, { d' with heap := h })
  | .hook _ a es, d => do
      let d' ← es.eval L d.heap.length d.newtable
      let r ← .lift (L.call (rawget (entriesOf d'.heap d.heap.length) (.ofNat 1)) d'.heap)
      .step ⟨a, r.1, true⟩ (r.1, Dec.enter { d' with heap := r.2 } r.1)

@[inherit_doc Visit.eval]
def Visits.eval (L : Lua) : Visits → Nat → Dec → Traced Reference Dec
  | .nil, _, d => pure d
  | .cons k v rest, a, d => do
      let k' ← k.eval L d
      let v' ← v.eval L k'.2
      let h ← .lift (settable v'.2.heap a k'.1 v'.1)
      rest.eval L a { v'.2 with heap := h }

end

/-- What was entered, for which objects. -/
def copies (T : List Reference) : List (Nat × Value) :=
  (T.filter (·.entered)).map fun r ↦ (r.object, r.value)

/-- All references to an object of a kind become one value. -/
def OneValue (p : Nat → Prop) (T : List Reference) : Prop :=
  ∀ r ∈ T, ∀ r' ∈ T, p r.object → r.object = r'.object → r.value = r'.value

/-- **Back-references are kept**, when the receiver with the heap `h'` decodes a visit: under
the number of each, the copy of its object is entered, and all references to one object
become one value. -/
structure KeepsReferences (L : Lua) (h' : Heap) (w : Visit) : Prop where
  aligned : Tandem.Aligned w.steps
  oneValue : OneValue (fun _ ↦ True) (w.eval L { heap := h' }).trace

section

variable {hooks : Hooks} {lua52 nowrap : Bool} {L : Lua} {h h' : Heap} {st st' : Enc}
  {v : Value} {w : Visit} {d d' : Dec} {T : List Reference} {p q t r : List (Tandem.Step Nat)}

mutual

/-- **Without the objects it is the decoder.** -/
theorem Visit.val_eval (L : Lua) : ∀ (w : Visit) (d : Dec),
    (w.eval L d).val = w.code.eval L d
  | .data c, d => rfl
  | .again _ a n, d => rfl
  | .table a es, d => by
      simp only [Visit.eval, Visit.code, Code.eval, Traced.val_bind, Traced.val_step,
        Xfer.ok_bind, es.val_eval L, Traced.val_pure]
  | .function a dump ups, d => by
      simp only [Visit.eval, Visit.code, Code.eval, Traced.val_bind, Traced.val_step,
        Traced.val_lift, Xfer.ok_bind, ups.val_eval L, Traced.val_pure]
  | .hook k a es, d => by
      simp only [Visit.eval, Visit.code, Code.eval, Traced.val_bind, Traced.val_step,
        Traced.val_lift, es.val_eval L]

theorem Visits.val_eval (L : Lua) : ∀ (ws : Visits) (a : Nat) (d : Dec),
    (ws.eval L a d).val = ws.codes.eval L a d
  | .nil, a, d => rfl
  | .cons k v rest, a, d => by
      simp only [Visits.eval, Visits.codes, Codes.eval, Traced.val_bind, Traced.val_lift,
        k.val_eval L, v.val_eval L, rest.val_eval L]

end

/-- The decoder of the bytes. -/
theorem Visit.marDecode_eq {depth : Nat} (hf : w.code.Fits) (hd : w.code.height ≤ depth) :
    marDecode L depth (0x8e :: w.code.print) h' =
      (w.eval L { heap := h' }).val >>= fun r ↦ .ok (r.1, r.2.heap) := by
  have hread := decodeValue_print (L := L) w.code depth [] { heap := h' } hf hd
  rw [List.append_nil] at hread
  rw [marDecode, if_neg (by simp), hread, Xfer.bind_assoc, w.val_eval L]
  rfl

/-! ## As long as the numbers are right -/

/-- Everything taken for an object was entered for it, at a point of the steps that the
decoder need not have reached. -/
structure Follows (p : List (Tandem.Step Nat)) (T : List Reference) : Prop where
  refs : ∀ r ∈ T, (r.object, r.value) ∈ copies T
  names : (copies T).map Prod.fst <+: Tandem.registered p

/-- At a point of the steps that the decoder has reached, its table holds the copies. -/
structure Current (p : List (Tandem.Step Nat)) (T : List Reference) (d : Dec) : Prop where
  refs : ∀ r ∈ T, (r.object, r.value) ∈ copies T
  names : (copies T).map Prod.fst = Tandem.registered p
  seen : d.seen = (copies T).map Prod.snd

/-- A part of the decoder that runs after `T`, up to a point of the steps. -/
structure Tracks {α : Type} (T : List Reference) (p : List (Tandem.Step Nat))
    (x : Traced Reference α) (g : α → Dec) : Prop where
  follows : Follows p (T ++ x.trace)
  current : ∀ a, x.val = .ok a → Current p (T ++ x.trace) (g a)

theorem copies_append (T T' : List Reference) : copies (T ++ T') = copies T ++ copies T' := by
  simp [copies]

theorem Current.follows (hc : Current p T d) : Follows p T :=
  ⟨hc.refs, hc.names ▸ List.prefix_refl _⟩

theorem Current.congr (hc : Current p T d) (hs : d'.seen = d.seen) : Current p T d' :=
  ⟨hc.refs, hc.names, hs.trans hc.seen⟩

namespace Tracks

variable {α β : Type} {x : Traced Reference α} {f : α → Traced Reference β} {g : α → Dec}
  {g' : β → Dec} {a : Nat}

/-- One part after another. -/
theorem bind (hx : Tracks T p x g) (hpq : Tandem.registered p <+: Tandem.registered q)
    (hf : ∀ y, x.val = .ok y → Current p (T ++ x.trace) (g y) →
      Tracks (T ++ x.trace) q (f y) g') : Tracks T q (x >>= f) g' := by
  have hstop : Follows q (T ++ x.trace) := ⟨hx.follows.refs, hx.follows.names.trans hpq⟩
  obtain ⟨val, T'⟩ := x
  cases val with
  | ok y =>
      have hy := hf y rfl (hx.current y rfl)
      rw [Traced.bind_of_ok rfl]
      refine ⟨?_, fun z hz ↦ ?_⟩
      · rw [← List.append_assoc]
        exact hy.follows
      · rw [← List.append_assoc]
        exact hy.current z hz
  | raised m | crash => exact ⟨hstop, fun z hz ↦ by cases hz⟩

/-- A part that takes nothing for an object. -/
theorem lift {y : Xfer α} (hc : Current p T d) (hs : ∀ z, y = .ok z → (g z).seen = d.seen) :
    Tracks T p (.lift y) g := by
  have happ : T ++ (Traced.lift y : Traced Reference α).trace = T := List.append_nil T
  refine ⟨?_, fun z hz ↦ ?_⟩
  · rw [happ]
    exact hc.follows
  · rw [happ]
    exact hc.congr (hs z hz)

theorem pure {z : α} (hc : Current p T d) (hs : (g z).seen = d.seen) :
    Tracks T p (Pure.pure z) g :=
  lift (y := .ok z) hc fun z' hz' ↦ by
    cases hz'
    exact hs

/-- The copy of an object is entered. -/
theorem enter {s : Tandem.Step Nat} {z : α} (hc : Current p T d) (hr : s.registered = some a)
    (hs : (g z).seen = d.seen ++ [v]) :
    Tracks T (p ++ [s]) (.step ⟨a, v, true⟩ z) g := by
  have hcopies : copies (T ++ [⟨a, v, true⟩]) = copies T ++ [(a, v)] := copies_append _ _
  have hcur : Current (p ++ [s]) (T ++ [⟨a, v, true⟩]) (g z) := by
    refine ⟨fun r hm ↦ ?_, ?_, ?_⟩
    · rw [hcopies, List.mem_append]
      rcases List.mem_append.1 hm with hm | hm
      · exact .inl (hc.refs r hm)
      · obtain rfl := List.mem_singleton.1 hm
        exact .inr (List.mem_singleton_self _)
    · rw [hcopies, List.map_append, hc.names, Tandem.registered_append]
      simp [Tandem.registered, hr]
    · rw [hcopies, hs, hc.seen, List.map_append]
      rfl
  refine ⟨hcur.follows, fun z' hz' ↦ ?_⟩
  cases hz'
  exact hcur

/-- **A reference with the right number** leads to what was entered for the object. -/
theorem found {n k : Nat} (hc : Current p T d) (hn : n = k + 1) (hlt : n < 2 ^ 31)
    (hk : (Tandem.registered p)[k]? = some a) :
    Tracks T (p ++ [.again a n])
      (.step ⟨a, d.get (BitVec.ofNat 32 n), false⟩ (d.get (BitVec.ofNat 32 n), d)) Prod.snd := by
  rw [← hc.names, List.getElem?_map] at hk
  obtain ⟨⟨b, v⟩, hget, rfl⟩ := Option.map_eq_some_iff.1 hk
  have hseen : d.seen[k]? = some v := by
    rw [hc.seen, List.getElem?_map, hget]
    rfl
  have hnat : (BitVec.ofNat 32 n).toNat = k + 1 := by
    rw [BitVec.toNat_ofNat, Nat.mod_eq_of_lt (by omega), hn]
  have hpos : 0 < (BitVec.ofNat 32 n).toInt := by
    rw [BitVec.toInt_eq_toNat_cond, hnat]
    omega
  have hv : d.get (BitVec.ofNat 32 n) = v := by
    rw [Dec.get, if_pos hpos, hnat, Nat.add_sub_cancel, hseen]
    rfl
  have hcopies (x : Value) : copies (T ++ [⟨b, x, false⟩]) = copies T := by
    rw [copies_append]
    exact List.append_nil _
  have hcur : Current (p ++ [.again b n]) (T ++ [⟨b, d.get (BitVec.ofNat 32 n), false⟩]) d := by
    refine ⟨fun r hm ↦ ?_, ?_, by rw [hcopies, hc.seen]⟩
    · rw [hcopies]
      rcases List.mem_append.1 hm with hm | hm
      · exact hc.refs r hm
      · obtain rfl := List.mem_singleton.1 hm
        rw [hv]
        exact List.mem_of_getElem? hget
    · rw [hcopies, hc.names, Tandem.registered_append]
      exact (List.append_nil _).symm
  refine ⟨hcur.follows, fun z hz ↦ ?_⟩
  cases hz
  exact hcur

end Tracks

theorem Code.seen_of_isData {c : Code} (hc : c.isData = true) {x : Value × Dec}
    (he : c.eval L d = .ok x) : x.2.seen = d.seen := by
  cases c with
  | nil | boolean | lightuserdata | number | string =>
      cases he
      rfl
  | ref | table | function | hook | userdata => cases hc

theorem registered_of_append (p q : List (Tandem.Step Nat)) :
    Tandem.registered p <+: Tandem.registered (p ++ q) :=
  ⟨Tandem.registered q, Tandem.registered_append.symm⟩

theorem Lua.loadFunction_seen (L : Lua) (dump : List UInt8) (d : Dec) :
    (L.loadFunction dump d).2.seen = d.seen ++ [(L.loadFunction dump d).1] := by
  unfold Lua.loadFunction
  split <;> rfl

mutual

/-- **The decoder takes for an object what it has entered for it**, as long as the numbers are
right. -/
theorem Visit.tracks (L : Lua) (ha : Tandem.Aligned t)
    (hb : ∀ a n, .again a n ∈ t → n < 2 ^ 31) : ∀ (w : Visit) {p r : List (Tandem.Step Nat)}
    {T : List Reference} {d : Dec}, t = p ++ (w.steps ++ r) → Current p T d →
      Tracks T (p ++ w.steps) (w.eval L d) Prod.snd
  | .data c, p, r, T, d, ht, hc => by
      rw [Visit.steps, List.append_nil]
      exact .lift hc fun z hz ↦ Code.seen_of_isData c.2 hz
  | .again k a n, p, r, T, d, ht, hc => by
      obtain ⟨k, hn, hk⟩ := ha p r a n ht
      exact .found hc hn (hb a n (by simp [ht, Visit.steps])) hk
  | .table a es, p, r, T, d, ht, hc => by
      have happ : p ++ (Visit.table a es).steps = (p ++ [.both a]) ++ es.steps := by
        simp [Visit.steps]
      have ht : t = (p ++ [.both a]) ++ (es.steps ++ r) := by simp [ht, Visit.steps]
      rw [happ]
      refine .bind (.enter (g := id) hc rfl rfl) (registered_of_append _ _) fun d₁ hd₁ hc₁ ↦ ?_
      cases hd₁
      exact .bind (es.tracks L ha hb ht hc₁) (List.prefix_refl _) fun d' _ hc' ↦ .pure hc' rfl
  | .function a dump ups, p, r, T, d, ht, hc => by
      have happ : p ++ (Visit.function a dump ups).steps = (p ++ [.both a]) ++ ups.steps := by
        simp [Visit.steps]
      have ht : t = (p ++ [.both a]) ++ (ups.steps ++ r) := by simp [ht, Visit.steps]
      have hseen := L.loadFunction_seen dump d
      rw [happ]
      refine .bind (.enter (g := id) hc rfl hseen) (registered_of_append _ _) fun d₁ hd₁ hc₁ ↦ ?_
      cases hd₁
      refine .bind (ups.tracks L ha hb ht (hc₁.congr rfl)) (List.prefix_refl _) fun d' _ hc' ↦ ?_
      exact .bind (.lift (g := fun _ ↦ d') hc' fun _ _ ↦ rfl) (List.prefix_refl _)
        fun _ _ hc'' ↦ .pure hc'' rfl
  | .hook k a es, p, r, T, d, ht, hc => by
      -- before the hook nothing is entered by the decoder, and the object after it
      obtain ⟨pre, hpre, hsteps⟩ : ∃ pre, Tandem.registered pre = [] ∧
          (Visit.hook k a es).steps = pre ++ (es.steps ++ [.read a]) := by
        cases k with
        | userdata => exact ⟨[.write a], rfl, rfl⟩
        | table | function => exact ⟨[], rfl, rfl⟩
      have happ : p ++ (Visit.hook k a es).steps = ((p ++ pre) ++ es.steps) ++ [.read a] := by
        simp [hsteps]
      have ht : t = (p ++ pre) ++ (es.steps ++ (.read a :: r)) := by simp [ht, hsteps]
      have hc₀ : Current (p ++ pre) T d.newtable :=
        ⟨hc.refs, by rw [hc.names, Tandem.registered_append, hpre, List.append_nil], hc.seen⟩
      rw [happ]
      refine .bind (es.tracks L ha hb ht hc₀) (registered_of_append _ _) fun d' _ hc' ↦ ?_
      refine .bind (.lift (g := fun _ ↦ d') hc' fun _ _ ↦ rfl) (registered_of_append _ _)
        fun x _ hc'' ↦ ?_
      exact .enter hc'' rfl rfl

theorem Visits.tracks (L : Lua) (ha : Tandem.Aligned t)
    (hb : ∀ a n, .again a n ∈ t → n < 2 ^ 31) : ∀ (ws : Visits) {b : Nat}
    {p r : List (Tandem.Step Nat)} {T : List Reference} {d : Dec},
      t = p ++ (ws.steps ++ r) → Current p T d → Tracks T (p ++ ws.steps) (ws.eval L b d) id
  | .nil, b, p, r, T, d, ht, hc => by
      rw [Visits.steps, List.append_nil]
      exact .pure hc rfl
  | .cons k v rest, b, p, r, T, d, ht, hc => by
      have happ : p ++ (Visits.cons k v rest).steps =
          ((p ++ k.steps) ++ v.steps) ++ rest.steps := by
        simp [Visits.steps]
      have hk : t = p ++ (k.steps ++ (v.steps ++ (rest.steps ++ r))) := by
        simp [ht, Visits.steps]
      have hv : t = (p ++ k.steps) ++ (v.steps ++ (rest.steps ++ r)) := by
        simp [hk]
      have hr : t = ((p ++ k.steps) ++ v.steps) ++ (rest.steps ++ r) := by
        simp [hv]
      rw [happ]
      refine .bind (k.tracks L ha hb hk hc) ?_ fun k' _ hc₁ ↦ ?_
      · rw [List.append_assoc]
        exact registered_of_append _ _
      refine .bind (v.tracks L ha hb hv hc₁) (registered_of_append _ _) fun v' _ hc₂ ↦ ?_
      refine .bind (.lift (g := fun _ ↦ v'.2) hc₂ fun _ _ ↦ rfl) (registered_of_append _ _)
        fun h _ hc₃ ↦ ?_
      exact rest.tracks L ha hb hr (hc₃.congr rfl)

end

/-! ## Exactly when -/

/-- The numbers of a visit are positive as an `int`. -/
theorem VisitOf.number_lt (hw : VisitOf hooks lua52 nowrap v { heap := h } w st')
    (hf : w.code.Fits) : ∀ a n, .again a n ∈ w.steps → n < 2 ^ 31 := by
  intro a n hm
  obtain ⟨l, r, ht⟩ := List.append_of_mem hm
  obtain ⟨k, rfl, hk⟩ := hw.consistent.number ht
  have hidx := hw.codeOf.idx_lt hf rfl
  have hnext : st'.idx = 1 + (Tandem.written w.steps).length := hw.writes.table.2
  have hlt : k < (Tandem.written l).length := (List.getElem?_eq_some_iff.1 hk).1
  rw [ht, Tandem.written_append, List.length_append] at hnext
  omega

/-- One copy of an object. -/
theorem eq_of_count_le_one {l : List (Nat × Value)} {a : Nat} {x y : Value}
    (hl : (l.map Prod.fst).count a ≤ 1) (hx : (a, x) ∈ l) (hy : (a, y) ∈ l) : x = y := by
  induction l with
  | nil => cases hx
  | cons e l ih =>
      have hnone {z : Value} (he : e.1 = a) : (a, z) ∉ l := fun hz ↦ by
        have hpos : 0 < (l.map Prod.fst).count a :=
          List.count_pos_iff.2 (List.mem_map_of_mem (f := Prod.fst) hz)
        rw [List.map_cons, he, List.count_cons_self] at hl
        omega
      rcases List.mem_cons.1 hx with rfl | hx <;> rcases List.mem_cons.1 hy with hy | hy
      · exact (Prod.mk.inj hy).2.symm
      · exact absurd hy (hnone rfl)
      · exact absurd hx (hnone (congrArg Prod.fst hy.symm))
      · refine ih (Nat.le_trans ?_ hl) hx hy
        rw [List.map_cons, List.count_cons]
        exact Nat.le_add_right _ _

/-- What the reader enters once has one value. -/
theorem Follows.oneValue {late : Nat → Prop} (hf : Follows t T)
    (hc : Tandem.Consistent late t) : OneValue (fun a ↦ ¬ late a) T := by
  intro x hx y hy hl heq
  have hle := hc.count_registered_le hl
  have hx := hf.refs x hx
  have hy := hf.refs y hy
  rw [← heq] at hy
  exact eq_of_count_le_one ((hf.names.sublist.count_le _).trans hle) hx hy

/-- **Back-references are kept exactly if** the numberings are balanced, and the closures of a
table with a `__persist` hook that is met several times rebuild one object. -/
theorem VisitOf.keeps_iff (hw : VisitOf hooks lua52 nowrap v { heap := h } w st')
    (hf : w.code.Fits) : KeepsReferences L h' w ↔ Tandem.Balanced w.steps ∧
      OneValue (Persisted st'.heap) (w.eval L { heap := h' }).trace := by
  have hcons := hw.consistent
  constructor
  · rintro ⟨ha, ho⟩
    exact ⟨hcons.aligned_iff.1 ha, fun x hx y hy _ ↦ ho x hx y hy trivial⟩
  · rintro ⟨hb, ho⟩
    have ha := hcons.aligned_iff.2 hb
    have hstart : Current [] [] { heap := h' } := ⟨fun x hx ↦ (by cases hx), rfl, rfl⟩
    have htracks := w.tracks L ha (hw.number_lt hf) (List.append_nil _).symm hstart
    have hone := htracks.follows.oneValue hcons
    refine ⟨ha, fun x hx y hy _ heq ↦ ?_⟩
    by_cases hp : Persisted st'.heap x.object
    · exact ho x hx y hy hp heq
    · exact hone x hx y hy hp heq

mutual

/-- Without hooks both parties enter everything at once. -/
theorem VisitOf.hookFree {v : Value} {st : Enc} {w : Visit} {st' : Enc} :
    VisitOf hooks lua52 nowrap v st w st' → HookFree st.heap →
      st'.heap = st.heap ∧ Tandem.begun w.steps = 0 ∧ Tandem.completed w.steps = 0
  | .nil, _ | .boolean, _ | .lightuserdata _, _ | .number, _ | .string, _ | .dangling _, _
  | .again .., _ => ⟨rfl, rfl, rfl⟩
  | .table _ _ _ hes, hf => hes.hookFree hf
  | .function _ _ _ hes, hf => hes.hookFree hf
  | .persist ho _ hp _ _, hf => by
      have ht := hf _ (List.mem_of_getElem? ho)
      rw [ht] at hp
      cases hp
  | .wrap ho _ hu _ _, hf => by
      have hn := hf _ (List.mem_of_getElem? ho)
      simp [hn.1, hn.2] at hu

theorem VisitsOf.hookFree {entries : List (Value × Value)} {st : Enc} {es : Visits} {st' : Enc} :
    VisitsOf hooks lua52 nowrap entries st es st' → HookFree st.heap →
      st'.heap = st.heap ∧ Tandem.begun es.steps = 0 ∧ Tandem.completed es.steps = 0
  | .nil, _ => ⟨rfl, rfl, rfl⟩
  | .cons hk hv hrest, hf => by
      obtain ⟨hh₁, hb₁, hc₁⟩ := hk.hookFree hf
      obtain ⟨hh₂, hb₂, hc₂⟩ := hv.hookFree (hh₁ ▸ hf)
      obtain ⟨hh₃, hb₃, hc₃⟩ := hrest.hookFree (hh₂ ▸ hh₁ ▸ hf)
      refine ⟨hh₃.trans (hh₂.trans hh₁), ?_, ?_⟩
      · simp [Visits.steps, hb₁, hb₂, hb₃]
      · simp [Visits.steps, hc₁, hc₂, hc₃]

end

/-- **Without hooks back-references are kept.** -/
theorem VisitOf.keepsReferences_of_hookFree
    (hw : VisitOf hooks lua52 nowrap v { heap := h } w st') (hf : w.code.Fits)
    (hh : HookFree h) : KeepsReferences L h' w := by
  obtain ⟨hheap, hb, hc⟩ := hw.hookFree hh
  have ha := hw.consistent.aligned_of_both hb hc
  refine (hw.keeps_iff hf).2 ⟨hw.consistent.aligned_iff.1 ha, fun x _ y _ hp _ ↦ ?_⟩
  obtain ⟨t, ht, hn⟩ := hp
  rw [hheap] at ht
  exact absurd (hh _ (List.mem_of_getElem? ht)) hn

/-! ## A table with a hook before a table that is shared -/

/-- A table that holds one with a `__persist` hook, and then a third one twice. -/
def sharedBehind : Heap :=
  [.table { entries := arrayEntries [.object 1, .object 2, .object 2] },
    .table { persist := some (.boolean true) }, .table {}]

/-- A hook that returns a new function. -/
def newFunction : Hooks := fun _ _ h ↦ .ok (.object h.length, [.function { what := .lua }])

/-- A receiver in which such a function returns a new table. -/
def newTable : Lua where
  lua52 := false
  globals := .nil
  load _ := .ok { what := .lua }
  call _ h := .ok (.object h.length, h ++ [.table {}])
  objlen _ := 0

/-- **Every encoding is a visit**, of which the decoder makes what `Visit.eval` says.  The
numbers of its back-references are right exactly if the numberings are balanced; all references
to one object then become one value, exactly if each table with a `__persist` hook is rebuilt
as one object. -/
theorem keepsReferences_iff {depth depth' : Nat} {bs : List UInt8} {h₁ : Heap}
    (he : marEncode hooks lua52 nowrap depth v h = .ok (bs, h₁)) (hd : depth ≤ depth') :
    ∃ w st', VisitOf hooks lua52 nowrap v { heap := h } w st' ∧ bs = 0x8e :: w.code.print ∧
      (Tandem.Aligned w.steps ↔ Tandem.Balanced w.steps) ∧
      ∀ L h', (marDecode L depth' bs h' =
          (w.eval L { heap := h' }).val >>= fun r ↦ .ok (r.1, r.2.heap)) ∧
        (KeepsReferences L h' w ↔ Tandem.Balanced w.steps ∧
          OneValue (Persisted h₁) (w.eval L { heap := h' }).trace) := by
  obtain ⟨c, st', hc, hf, hheight, rfl, rfl⟩ := marEncode_eq_ok_iff.1 he
  obtain ⟨w, hw, rfl⟩ := hc.visitOf
  exact ⟨w, st', hw, rfl, hw.consistent.aligned_iff, fun L h' ↦
    ⟨Visit.marDecode_eq hf (hheight.trans hd), hw.keeps_iff hf⟩⟩

/-- The numberings at a table with a `__persist` hook, and then a table that is shared. -/
theorem keepsReferences_iff_sharedBehind : ∃ bs h₁,
    marEncode newFunction false false 3 (.object 0) sharedBehind = .ok (bs, h₁) ∧
    ∃ w st', VisitOf newFunction false false (.object 0) { heap := sharedBehind } w st' ∧
      bs = 0x8e :: w.code.print ∧ (Tandem.Aligned w.steps ↔ Tandem.Balanced w.steps) ∧
      ∀ L h', (marDecode L 3 bs h' =
          (w.eval L { heap := h' }).val >>= fun r ↦ .ok (r.1, r.2.heap)) ∧
        (KeepsReferences L h' w ↔ Tandem.Balanced w.steps ∧
          OneValue (Persisted h₁) (w.eval L { heap := h' }).trace) :=
  ⟨_, _, rfl, keepsReferences_iff rfl (Nat.le_refl 3)⟩

/-- **The number is that of another object**: of the two references to one table, the second
becomes the copy of the table with the hook. -/
theorem not_keepsReferences :
    ∃ bs h₁ w st', marEncode newFunction false false 3 (.object 0) sharedBehind = .ok (bs, h₁) ∧
      VisitOf newFunction false false (.object 0) { heap := sharedBehind } w st' ∧
      bs = 0x8e :: w.code.print ∧ ¬ KeepsReferences newTable [] w ∧
      ∃ h', marDecode newTable 3 bs [] = .ok (.object 0, h') ∧
        h'[0]? = some (.table { entries := arrayEntries [.object 4, .object 5, .object 4] }) := by
  refine ⟨_, _, _, _, rfl, .table rfl rfl rfl (.cons .number (.persist rfl rfl rfl rfl
    (.cons .number (.function rfl rfl rfl .nil) .nil)) (.cons .number (.table rfl rfl rfl .nil)
      (.cons .number (.again rfl rfl rfl) .nil))), rfl, fun hk ↦ ?_, _, rfl, rfl⟩
  obtain ⟨i, hi, hget⟩ := hk.aligned [.both 0, .both 3, .read 1, .both 2] [] 2 3 rfl
  obtain rfl : i = 2 := by omega
  cases hget

end

end Leda.Marshal
