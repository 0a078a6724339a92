/-
Reading breaks no rule, whatever the bytes are.

A reader may be given any bytes, so the rules have to hold by what it checks itself.
`Safe` says of one reader that from a place in some data it comes to a place in the same
data, with an answer or a refusal.  It passes to sequences, so only the few readers that
all are made from have to be looked at, and the body of a function.  There it rests on the
stack, where every id is the id of a node, and on the number of bytes: a node takes a record
and a record takes a byte, so fewer than 2 ^ 32 bytes cannot use up the ids.

What has been read is then fit to be worked on.  In the graph of a function operands come
before the nodes that use them and the root is a node, and there are no more nodes than
bytes.  The entry point is a function.
-/
import Codegen.Proofs.Bytecode.Reemission
import Codegen.Proofs.Graph.Walk

namespace Codegen

/-! ### Places in the data -/

namespace Cursor

/-- The position is one of `data`, which may be its end. -/
def Within (data : List UInt8) (c : Cursor) : Prop :=
  ∃ n ≤ data.length, c = (start data).advance n

theorem start_within (data : List UInt8) : (start data).Within data :=
  ⟨0, Nat.zero_le _, rfl⟩

theorem remaining_advance (data : List UInt8) (n : Nat) :
    ((start data).advance n).remaining = data.length - n :=
  List.length_drop

theorem Within.advance {data : List UInt8} {c : Cursor} {n : Nat} (h : c.Within data)
    (hn : n ≤ c.remaining) : (c.advance n).Within data := by
  obtain ⟨k, hk, rfl⟩ := h
  rw [remaining_advance] at hn
  refine ⟨k + n, by omega, ?_⟩
  simp only [Cursor.advance, start, List.drop_drop, Nat.add_assoc]

theorem Within.remaining_le {data : List UInt8} {c : Cursor} (h : c.Within data) :
    c.remaining ≤ data.length := by
  obtain ⟨k, -, rfl⟩ := h
  rw [remaining_advance]
  exact Nat.sub_le ..

end Cursor

/-! ### Readers that break no rule -/

namespace Reader

variable {α β : Type} {data : List UInt8}

/-- A reader has ended at a place in `data`, with an answer or a refusal. -/
def Lands (data : List UInt8) : EStateM.Result (Stop DecodeError) Cursor α → Prop
  | .ok _ c => c.Within data
  | .error stop c => c.Within data ∧ ∃ e, stop = .reject e

/-- The second reader needs to land only from where the first has led. -/
theorem Lands.bind {x : Reader α} {f : α → Reader β} {c : Cursor} (hx : Lands data (x c))
    (hf : ∀ a c', x c = .ok a c' → c'.Within data → Lands data (f a c')) :
    Lands data ((x >>= f) c) := by
  cases hfirst : x c with
  | ok a c' =>
      rw [hfirst] at hx
      rw [bind_ok hfirst]
      exact hf a c' hfirst hx
  | error stop c' =>
      rw [hfirst] at hx
      rw [bind_error hfirst]
      exact hx

/-- From every place in `data` the reader comes to a place in them, and breaks no rule. -/
def Safe (data : List UInt8) (read : Reader α) : Prop := ∀ c, c.Within data → Lands data (read c)

theorem Safe.bind {x : Reader α} {f : α → Reader β} (hx : Safe data x)
    (hf : ∀ a, Safe data (f a)) : Safe data (x >>= f) := by
  intro c hc
  exact (hx c hc).bind fun a c' _ hc' => hf a c' hc'

theorem safe_ofExcept {outcome : Except (Stop DecodeError) α} (h : NoFault outcome) :
    Safe data (ofExcept outcome) := by
  intro c hc
  rcases outcome with (e | fault) | a
  · exact ⟨hc, e, rfl⟩
  · exact absurd rfl (h fault)
  · exact hc

theorem safe_reject (e : DecodeError) : Safe data (reject e : Reader α) :=
  safe_ofExcept (NoFault.reject e)

theorem safe_pure (a : α) : Safe data (Pure.pure a : Reader α) := safe_ofExcept (NoFault.ok a)

theorem safe_bytes (n : Nat) : Safe data (bytes n) := by
  intro c hc
  unfold bytes
  dsimp only
  split
  · next hlength =>
      refine hc.advance ?_
      rw [List.length_take] at hlength
      exact hlength ▸ Nat.min_le_right ..
  · exact ⟨hc, _, rfl⟩

theorem safe_varint : Safe data varint := by
  intro c hc
  unfold varint
  split
  · next value used hdecode =>
      obtain ⟨groups, rest, hrest, rfl, -⟩ := Varint.of_decode_ok hdecode
      refine hc.advance ?_
      rw [Cursor.remaining, hrest, List.length_append]
      exact Nat.le_add_right ..
  · exact ⟨hc, _, rfl⟩
  · exact ⟨hc, _, rfl⟩

theorem safe_block : Safe data block := by
  have hget : Safe data (get : Reader Cursor) := fun _ hc => hc
  have hoffset : Safe data offset := fun _ hc => hc
  have hlength : Safe data length := by
    refine hoffset.bind fun start => safe_varint.bind fun value => hget.bind fun c => ?_
    split
    · exact safe_pure _
    · exact safe_reject _
  exact hlength.bind safe_bytes

theorem pervasive_safe (data : List UInt8) : Pervasive fun _ read => Safe data read where
  pure := safe_pure
  reject := safe_reject
  bind := Safe.bind
  offset := fun _ hc => hc
  bytes := safe_bytes
  varint := safe_varint
  block := safe_block

end Reader

open Reader

namespace Assembly

/-- Where an id is left, a record runs or is refused. -/
theorem noFault_step {a : Assembly} (hroom : a.nodes.length < 2 ^ 32) (index : Nat) (r : Record) :
    NoFault (a.step index r) := by
  intro fault h
  rcases of_step_error h with ⟨id, -, -, hstop⟩ | ⟨-, -, hstop⟩ | ⟨-, -, hfull, -⟩
  · cases hstop
  · cases hstop
  · exact absurd hroom (Nat.not_lt.mpr hfull)

theorem noFault_finish (a : Assembly) : NoFault a.finish := by
  unfold finish
  split
  · exact NoFault.ok _
  · exact NoFault.reject _

variable {data : List UInt8} (hsize : data.length < 2 ^ 32)

include hsize

/-- On a stack of nodes the machine reads and runs records without breaking a rule, if the nodes
that it has were paid for with bytes of the same data. -/
theorem lands_run (count : Nat) :
    ∀ {a : Assembly} (index : Nat) {c : Cursor}, a.Valid → c.Within data →
      a.nodes.length + c.remaining ≤ data.length → Lands data (a.toMachine.run index count c) := by
  induction count with
  | zero =>
      intro a index c _ hc _
      exact hc
  | succ count ih =>
      intro a index c hv hc hpaid
      have hread : Lands data (Record.read c) := (pervasive_safe data).read c hc
      have hadvance : Lands data (a.toMachine.advance index c) := by
        refine hread.bind fun r c₁ hread hc₁ => safe_ofExcept ?_ c₁ hc₁
        -- The record takes a byte, and so there are fewer nodes than bytes.
        have hbyte := r.length_encode_pos
        have hle := length_read hread
        rw [← (Record.of_read_ok hread).2, step_toMachine hv]
        exact (noFault_step (by omega) index r).map toMachine
      refine hadvance.bind fun next c₁ hnext hc₁ => ?_
      obtain ⟨r, b, hread, hstep, rfl, -⟩ := of_advance_ok hv hnext
      have hmove := moves_of_step hstep
      have hbyte := r.length_encode_pos
      have hle := length_read hread
      have hnodes := hmove.length_le
      exact ih (index + 1) (hmove.valid hv) hc₁ (by omega)

theorem safe_decodeFunction (count : Nat) : Safe data (decodeFunction count) := by
  intro c hc
  have hpaid : start.nodes.length + c.remaining ≤ data.length := by
    rw [start, List.length_nil, Nat.zero_add]
    exact hc.remaining_le
  refine (lands_run hsize count 0 start_valid hc hpaid).bind fun m c₁ hrun hc₁ => ?_
  obtain ⟨records, a, -, ha, rfl, -⟩ := of_run_ok count start_valid hrun
  refine safe_ofExcept ?_ c₁ hc₁
  rw [finish_toMachine ((runs_of_run records ha).valid start_valid)]
  exact noFault_finish a

end Assembly

theorem safe_container {data : List UInt8} (hsize : data.length < 2 ^ 32) :
    Safe data Container.read :=
  (pervasive_safe data).container (Assembly.safe_decodeFunction hsize)

theorem noFault_parse {data : List UInt8} (hsize : data.length < 2 ^ 32) :
    NoFault (Container.parse data) := by
  have hlands := safe_container hsize _ (Cursor.start_within data)
  unfold Container.parse
  cases hread : Container.read (Cursor.start data) with
  | ok container c => exact NoFault.ok container
  | error stop c =>
      rw [hread] at hlands
      obtain ⟨-, e, rfl⟩ := hlands
      exact NoFault.reject e

/-! ### The graph of a function -/

namespace Assembly

/-- Every operand comes before the node that uses it. -/
def Ordered (a : Assembly) : Prop :=
  ∀ (id : NodeId) (n : IrNode), a.nodes[id]? = some n → ∀ operand ∈ n.operands, operand < id

theorem start_ordered : start.Ordered := by
  intro id n hn
  cases hn

theorem produce_ordered {a : Assembly} {n : IrNode} {rest : List NodeId} (h : a.Ordered)
    (hn : ∀ operand ∈ n.operands, operand < a.nodes.length) : (a.produce n rest).Ordered := by
  intro id m hm
  rcases getElem?_produce.mp hm with hold | ⟨rfl, rfl⟩
  · exact h id m hold
  · exact hn

theorem Moves.ordered {a b : Assembly} {r : Record} (h : a.Moves r b) (hv : a.Valid)
    (ho : a.Ordered) : b.Ordered := by
  cases h with
  | imm type value => exact produce_ordered ho fun operand hmem => by cases hmem
  | @binary op type lhs rhs rest hstack =>
      refine produce_ordered ho fun operand hmem => hv.stack operand ?_
      rw [hstack]
      simp only [List.mem_cons, List.not_mem_nil, or_false] at hmem ⊢
      rcases hmem with rfl | rfl
      · exact Or.inr (Or.inl rfl)
      · exact Or.inl rfl
  | ref hid => exact ho
  | @chain first top rest hstack =>
      -- A chain is no operand, so the nodes use what they used before.
      intro id n hn
      have hsame : ((a.nodes.modify top (·.withChain first))[id]?.bind fun n => some n.operands)
          = a.nodes[id]?.bind fun n => some n.operands :=
        bind_modify_withChain (fun n => rfl) a.nodes top id
      rw [hn] at hsame
      obtain ⟨n', hn', hoperands⟩ := Option.bind_eq_some_iff.mp hsame.symm
      rw [← Option.some.inj hoperands]
      exact ho id n' hn'

theorem Runs.ordered {a b : Assembly} {records : List Record} (h : Runs a records b)
    (hv : a.Valid) (ho : a.Ordered) : b.Ordered :=
  h.invariant (fun _ hmove hv ho => hmove.ordered hv ho) hv ho

theorem backward_of_ofRecords {records : List Record} {g : IrGraph}
    (h : ofRecords records = .ok g) : g.Backward := by
  obtain ⟨a, root, hruns, -, rfl⟩ := runs_of_ofRecords h
  intro id n hn
  refine hruns.ordered start_valid start_ordered id n ?_
  rw [← List.getElem?_toArray]
  exact hn

theorem closed_of_ofRecords {records : List Record} {g : IrGraph} (h : ofRecords records = .ok g) :
    g.Closed := by
  refine ⟨?_, (backward_of_ofRecords h).inRange⟩
  obtain ⟨a, root, hruns, hstack, rfl⟩ := runs_of_ofRecords h
  intro id hid
  cases hid
  refine (hruns.valid start_valid).stack root ?_
  rw [hstack]
  exact List.mem_singleton_self root

/-- Each record takes a byte at least. -/
theorem length_le_of_many_ok {count : Nat} {records : List Record} {c c' : Cursor}
    (h : Reader.many Record.read count c = .ok records c') : records.length ≤ c.remaining := by
  obtain ⟨records', hsame, -, -, hbytes⟩ := rewritable_record.many _ _ _ _ h
  rw [List.map_id] at hsame
  subst hsame
  have hrecords := length_le_flatMap Record.encode records' fun r _ => r.length_encode_pos
  omega

/-- However many records have been run, there are no more nodes than there were bytes. -/
theorem size_le_of_run_ok {count : Nat} {m : Machine} {c c' : Cursor}
    (h : Machine.start.run 0 count c = .ok m c') : m.graph.size ≤ c.remaining := by
  obtain ⟨records, a, hmany, ha, rfl, -⟩ := of_run_ok count start_valid h
  exact Nat.le_trans (runs_of_run records ha).length_le (length_le_of_many_ok hmany)

theorem closed_of_decodeFunction_ok {count : Nat} {g : IrGraph} {c c' : Cursor}
    (h : decodeFunction count c = .ok g c') : g.Closed ∧ g.size ≤ c.remaining := by
  obtain ⟨records, hmany, hbuild, -⟩ := of_decodeFunction_ok h
  refine ⟨closed_of_ofRecords hbuild, ?_⟩
  obtain ⟨a, root, hruns, -, rfl⟩ := runs_of_ofRecords hbuild
  exact Nat.le_trans hruns.length_le (length_le_of_many_ok hmany)

end Assembly

/-! ### Containers that have been read -/

theorem FunctionDraft.Good.closed {f : FunctionDraft} {fn : Function} (h : f.Good fn) :
    fn.graph.Closed ∧ fn.graph.size ≤ f.encode.length := by
  obtain ⟨g, hg, rfl⟩ := Option.map_eq_some_iff.mp h.decodes
  unfold graph? at hg
  split at hg
  · next g' c hdecode =>
      cases hg
      obtain ⟨hclosed, hsize⟩ := Assembly.closed_of_decodeFunction_ok hdecode
      have hbody : (Cursor.start f.body).remaining = f.body.length := rfl
      refine ⟨hclosed, ?_⟩
      simp only [encode, List.length_append]
      omega
  · cases hg

theorem Draft.Describes.closed {d : Draft} {container : Container} (h : d.Describes container)
    {fn : Function} (hfn : fn ∈ container.functions) :
    fn.graph.Closed ∧ fn.graph.size ≤ d.encode.length := by
  obtain ⟨i, hi, rfl⟩ := List.mem_iff_getElem.mp hfn
  have hi' : i < d.functions.length := h.functions.length_eq ▸ hi
  obtain ⟨hclosed, hsize⟩ := (h.functions.get hi' hi).closed
  have hlength := length_le_flatMap_of_mem FunctionDraft.encode (List.getElem_mem hi')
  refine ⟨hclosed, Nat.le_trans hsize ?_⟩
  simp only [Draft.encode, List.length_append]
  exact Nat.le_trans hlength (by omega)

theorem FunctionDraft.lt_of_mem_flaggedFrom {i : Nat} (fs : List FunctionDraft) :
    ∀ {index : Nat}, i ∈ flaggedFrom index fs → i < index + fs.length := by
  induction fs with
  | nil =>
      intro index hi
      cases hi
  | cons f fs ih =>
      intro index hi
      rw [List.length_cons]
      rw [flaggedFrom] at hi
      split at hi
      · rcases List.mem_cons.mp hi with rfl | hi
        · omega
        · have hlt := ih hi
          omega
      · have hlt := ih hi
        omega

theorem mem_of_entryOf_ok {flagged : List Nat} {index : Nat}
    (h : entryOf flagged = .ok (some index)) : index ∈ flagged := by
  rcases flagged with _ | ⟨first, _ | ⟨second, rest⟩⟩
  · cases h
  · cases h
    exact List.mem_singleton_self index
  · cases h

/-- The entry point is one of the functions. -/
theorem Draft.Describes.exists_entryFunction {d : Draft} {container : Container}
    (h : d.Describes container) : ∃ f, container.entryFunction = .ok f := by
  unfold Container.entryFunction
  cases hentry : container.entrypoint with
  | none => exact ⟨none, rfl⟩
  | some index =>
      have hmem := mem_of_entryOf_ok (hentry ▸ h.entrypoint)
      have hindex := FunctionDraft.lt_of_mem_flaggedFrom d.functions hmem
      rw [Nat.zero_add, h.functions.length_eq] at hindex
      refine ⟨some container.functions[index], ?_⟩
      simp only [List.getElem?_eq_getElem hindex]

/-- A container that was parsed is described by a draft of no more bytes. -/
theorem exists_describes_of_parse {data : List UInt8} {container : Container}
    (h : Container.parse data = .ok container) :
    ∃ d : Draft, d.Describes container ∧ d.encode.length ≤ data.length := by
  unfold Container.parse at h
  split at h
  · next container' c hread =>
      cases h
      obtain ⟨d, hdescribes, hlength, -⟩ := exists_describes hread
      have hall : (Cursor.start data).remaining = data.length := rfl
      exact ⟨d, hdescribes, by omega⟩
  · cases h

end Codegen
