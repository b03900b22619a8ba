import Leda.Marshal.Calls

/-!
# Parcels

What a hook returns is sent in place of its object, as a table with a function in it, and
the decoder calls that function to get the value.  In the tree of an encoding these tables
are its *parcels*.

A parcel has a call at each end.  The encoder writes one for every hook that it calls, and
what it writes is the function that this call returned (`CodeOf.sends`).  The decoder
calls the function of every parcel, once (`Code.opens`).
-/

namespace Leda.Marshal

open Leda.Lib Leda.Lua List

/-- A table that was written with `MAR_TUSR`. -/
structure Parcel where
  /-- Whether it stands for a table or for a userdata. -/
  kind : Kind
  content : Codes

mutual

/-- The parcels of a tree, the outer one first. -/
def Code.parcels : Code → List Parcel
  | .table es | .function _ _ es => es.parcels
  | .hook k es => ⟨k, es⟩ :: es.parcels
  | _ => []

@[inherit_doc Code.parcels]
def Codes.parcels : Codes → List Parcel
  | .nil => []
  | .cons k v rest => k.parcels ++ v.parcels ++ rest.parcels

end

/-! ## The sender -/

section Sender

variable (hooks : Hooks) (lua52 nowrap : Bool)

/-- The parcel is written for this call: it holds the function that the hook returned. -/
def Call.Sends (x : Call) (p : Parcel) : Prop :=
  ∃ r new st st', hooks x.hook (.object x.object) x.heap = .ok (r, new) ∧
    st.heap = x.heap ++ new ∧ isFunction st.heap r = true ∧
    CodesOf hooks lua52 nowrap [(.ofNat 1, r)] st p.content st'

variable {hooks lua52 nowrap} {depth : Nat} {st st₁ st' : Enc} {a : Nat} {f r : Value}
  {es : Codes} {name : String}

/-- The call of a hook and the parcel with what it returned. -/
theorem sends_of_callHook (k : Kind) (hc : callHook hooks name f a st = .ok (r, st₁))
    (hes : CodesOf hooks lua52 nowrap [(.ofNat 1, r)] st₁ es st') :
    Call.Sends hooks lua52 nowrap ⟨name, f, a, st.heap⟩ ⟨k, es⟩ := by
  unfold callHook at hc
  split at hc
  · cases hc
  · rename_i r' new hk
    split at hc
    · rename_i hfun
      cases hc
      exact ⟨r, new, _, st', hk, rfl, hfun, hes⟩
    · cases hc

/-- A hook, then the calls for what it returned. -/
theorem sends_of_callsHook {calls : List Call} {ps : List Parcel} {k : Kind}
    (hc : callHook hooks name f a st = .ok (r, st₁))
    (hes : CodesOf hooks lua52 nowrap [(.ofNat 1, r)] st₁ es st')
    (hin : Forall₂ (Call.Sends hooks lua52 nowrap) calls ps) :
    Forall₂ (Call.Sends hooks lua52 nowrap) (⟨name, f, a, st.heap⟩ :: calls)
      (⟨k, es⟩ :: ps) := .cons (sends_of_callHook k hc hes) hin

mutual

/-- **Every call of a hook has its parcel**, in the order of the calls. -/
theorem CodeOf.sends {v : Value} {st : Enc} {c : Code} {st' : Enc} {depth : Nat} :
    CodeOf hooks lua52 nowrap v st c st' → c.Fits → c.height ≤ depth →
      Forall₂ (Call.Sends hooks lua52 nowrap) (callsValue hooks lua52 nowrap depth v st)
        c.parcels := by
  intro hc hf hd
  obtain ⟨depth, rfl⟩ : ∃ m, depth = m + 1 := ⟨depth - 1, by have := c.height_pos; omega⟩
  match hc with
  | .nil | .boolean | .number | .lightuserdata _ | .string => exact .nil
  | .dangling ho =>
      simp only [callsValue, ho]
      exact .nil
  | .ref (o := o) ho hk hl =>
      cases o <;> simp only [callsValue, ho, callsObject, hl] <;> exact .nil
  | .table ho hl hp hes =>
      simp only [callsValue, ho, callsObject, hl, callsTableObject, hp]
      exact hes.sends hf.2 (Nat.le_of_succ_le_succ hd)
  | .function (f := f) ho hl hw hes =>
      have hdump : ¬ (f.what ≠ .lua ∨ 2 ^ 32 - 1 < f.dump.length) := by
        have := hf.2.1
        simp only [hw, ne_eq, not_true_eq_false, false_or]
        omega
      simp only [callsValue, ho, callsObject, hl, callsFunction, if_neg hdump]
      exact hes.sends hf.2.2.2 (Nat.le_of_succ_le_succ hd)
  | .persist ho hl hp hcall hes =>
      have hin := hes.sends hf.2.2 (Nat.le_of_succ_le_succ hd)
      simp only [callsValue, ho, callsObject, hl, callsTableObject, hp, callsHook, hcall]
      exact sends_of_callsHook hcall hes hin
  | .wrap ho hl (.inl ⟨hw, hname⟩) hcall hes =>
      subst hname
      have hin := hes.sends hf.2.2 (Nat.le_of_succ_le_succ hd)
      simp only [callsValue, ho, callsObject, hl, callsUserdata, hw, callsHook, hcall]
      exact sends_of_callsHook hcall hes hin
  | .wrap ho hl (.inr ⟨hw, hp, hname⟩) hcall hes =>
      subst hname
      have hin := hes.sends hf.2.2 (Nat.le_of_succ_le_succ hd)
      simp only [callsValue, ho, callsObject, hl, callsUserdata, hw, hp, callsHook, hcall]
      exact sends_of_callsHook hcall hes hin

theorem CodesOf.sends {entries : List (Value × Value)} {st : Enc} {es : Codes} {st' : Enc}
    {depth : Nat} : CodesOf hooks lua52 nowrap entries st es st' → es.Fits → es.height ≤ depth →
      Forall₂ (Call.Sends hooks lua52 nowrap)
        (callsTable (encodeValue hooks lua52 nowrap depth) (callsValue hooks lua52 nowrap depth)
          entries st) es.parcels
  | .nil, _, _ => .nil
  | .cons hk hv hrest, hf, hd => by
      obtain ⟨hdk, hd'⟩ := Nat.max_le.1 hd
      obtain ⟨hdv, hdr⟩ := Nat.max_le.1 hd'
      simp only [callsTable, hk.encodeValue hf.1 hdk, hv.encodeValue hf.2.1 hdv, after,
        Codes.parcels, List.append_assoc]
      exact rel_append (hk.sends hf.1 hdk)
        (rel_append (hv.sends hf.2.1 hdv) (hrest.sends hf.2.2 hdr))

end

end Sender

/-! ## The receiver -/

/-- A call that the decoder makes of the function in a parcel. -/
structure Opening where
  function : Value
  /-- The objects there are then. -/
  heap : Heap

variable (L : Lua)

mutual

/-- The functions that are called while a tree is decoded, in order. -/
def Code.openings : Code → Dec → List Opening
  | .table es, d => es.openings d.heap.length (d.newtable.enter (.object d.heap.length))
  | .function _ dump ups, d =>
      let d := (L.loadFunction dump d).2
      ups.openings d.heap.length d.newtable
  | .hook _ es, d => es.openings d.heap.length d.newtable ++
      match es.eval L d.heap.length d.newtable with
      | .ok d' => [⟨rawget (entriesOf d'.heap d.heap.length) (.ofNat 1), d'.heap⟩]
      | _ => []
  | _, _ => []

@[inherit_doc Code.openings]
def Codes.openings : Codes → Nat → Dec → List Opening
  | .nil, _, _ => []
  | .cons k v rest, a, d => k.openings d ++
      match k.eval L d with
      | .ok (vk, d) => v.openings d ++
          match v.eval L d with
          | .ok (vv, d) =>
              match Lua.settable d.heap a vk vv with
              | .ok h => rest.openings a { d with heap := h }
              | _ => []
          | _ => []
      | _ => []

end

/-- The function that is called is the one in the parcel, decoded there. -/
def Opening.Opens (o : Opening) (p : Parcel) : Prop :=
  ∃ d d' : Dec, p.content.eval L d.heap.length d.newtable = .ok d' ∧
    o = ⟨rawget (entriesOf d'.heap d.heap.length) (.ofNat 1), d'.heap⟩

/-- The parcels are opened, each of them once, in any order. -/
def OpensAll (os : List Opening) (ps : List Parcel) : Prop :=
  ∃ qs, qs.Perm ps ∧ Forall₂ (Opening.Opens L) os qs

variable {L}

theorem OpensAll.append {os os' : List Opening} {ps ps' : List Parcel} (h : OpensAll L os ps)
    (h' : OpensAll L os' ps') : OpensAll L (os ++ os') (ps ++ ps') := by
  obtain ⟨qs, hp, hq⟩ := h
  obtain ⟨qs', hp', hq'⟩ := h'
  exact ⟨qs ++ qs', hp.append hp', rel_append hq hq'⟩

mutual

/-- **The decoder opens every parcel, once.** -/
theorem Code.opens : ∀ (c : Code) {d : Dec} {r : Value × Dec}, c.eval L d = .ok r →
    OpensAll L (c.openings L d) c.parcels
  | .nil _, _, _, _ | .boolean _, _, _, _ | .lightuserdata _, _, _, _ | .number _, _, _, _
  | .string _, _, _, _ | .ref _ _, _, _, _ | .userdata _, _, _, _ => ⟨[], .refl _, .nil⟩
  | .table es, d, r, h => by
      obtain ⟨d', hes, -⟩ := Xfer.bind_eq_ok.1 h
      exact es.opens hes
  | .function _ dump ups, d, r, h => by
      obtain ⟨d', hups, -⟩ := Xfer.bind_eq_ok.1 h
      exact ups.opens hups
  | .hook k es, d, r, h => by
      obtain ⟨d', hes, -⟩ := Xfer.bind_eq_ok.1 h
      obtain ⟨qs, hp, hq⟩ := es.opens hes
      -- the parcels inside are opened first
      refine ⟨qs ++ [⟨k, es⟩], (perm_append_singleton _ _).trans (hp.cons _), ?_⟩
      simp only [Code.openings, hes]
      exact rel_append hq (.cons ⟨d, d', hes, rfl⟩ .nil)

theorem Codes.opens : ∀ (es : Codes) {a : Nat} {d d' : Dec}, es.eval L a d = .ok d' →
    OpensAll L (es.openings L a d) es.parcels
  | .nil, _, _, _, _ => ⟨[], .refl _, .nil⟩
  | .cons k v rest, a, d, d', h => by
      obtain ⟨⟨vk, d₁⟩, hk, h⟩ := Xfer.bind_eq_ok.1 h
      obtain ⟨⟨vv, d₂⟩, hv, h⟩ := Xfer.bind_eq_ok.1 h
      obtain ⟨h₃, hs, h⟩ := Xfer.bind_eq_ok.1 h
      simp only [Codes.openings, hk, hv, hs, Codes.parcels, List.append_assoc]
      exact (k.opens hk).append ((v.opens hv).append (rest.opens h))

end

end Leda.Marshal
