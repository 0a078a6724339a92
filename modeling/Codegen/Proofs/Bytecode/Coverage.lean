/-
Decoding loses no work.

A record that takes ids off the stack hangs them on the one it leaves there: an operation
uses its operands, and a chain makes the node below wait for the one on top.  So while
a function is decoded every node is led to from the stack, and when a single id is left,
every node is led to from the root.

Only one thing is ever taken away, and that is a chain that a later one replaces.  What
was hung there may then hang nowhere, and so the argument needs that no chain is replaced.

Where there are no chains at all, what leads on are operands, which is what a walk
follows.  Then also the root is known: the node created last never leaves the stack, for it
is taken only to be used in a node that comes after it.
-/
import Codegen.Proofs.Bytecode.Circles
import Codegen.Proofs.Graph.BreadthFirst

namespace Codegen

namespace Assembly

variable {a b : Assembly} {r : Record} {records : List Record} {n : IrNode} {x y : NodeId}
  {rest : List NodeId}

/-! ### Every node is led to from the stack -/

/-- Every node is led to from an id on the stack. -/
def Covered (a : Assembly) : Prop :=
  ∀ id < a.nodes.length, ∃ waiting ∈ a.stack, a.graph.Leads waiting id

theorem start_covered : start.Covered := fun _ hid => absurd hid (Nat.not_lt_zero _)

/-- What a record takes off the stack is led to from what it leaves there. -/
theorem Moves.exists_leads (h : a.Moves r b) (hv : a.Valid) :
    ∀ id ∈ a.stack, ∃ waiting ∈ b.stack, b.graph.Leads waiting id := by
  intro id hid
  cases h with
  | imm type value => exact ⟨id, List.mem_cons_of_mem _ hid, Relation.ReflTransGen.refl⟩
  | @binary op type lhs rhs rest hstack =>
      by_cases hrest : id ∈ rest
      · exact ⟨id, List.mem_cons_of_mem _ hrest, Relation.ReflTransGen.refl⟩
      · refine ⟨a.nodes.length, List.mem_cons_self, Relation.ReflTransGen.single ?_⟩
        refine awaits_produce.mpr (Or.inr ⟨rfl, ?_⟩)
        rw [hstack] at hid
        simp only [List.mem_cons, hrest, or_false] at hid
        simp [Node.refs, hid.symm]
  | ref hlt => exact ⟨id, List.mem_cons_of_mem _ hid, Relation.ReflTransGen.refl⟩
  | @chain first top rest hstack =>
      rw [hstack] at hid
      rcases List.mem_cons.mp hid with rfl | hleft
      · refine ⟨top, List.mem_cons_self, Relation.ReflTransGen.single ?_⟩
        exact awaits_modify_new rfl (hv.stack top (by simp [hstack]))
      · exact ⟨id, hleft, Relation.ReflTransGen.refl⟩

/-- A node that a record has created is on the stack. -/
theorem Moves.lt_or_mem (h : a.Moves r b) :
    ∀ id < b.nodes.length, id < a.nodes.length ∨ id ∈ b.stack := by
  intro id hid
  cases h with
  | imm type value | binary op type hstack =>
      simp only [produce, List.length_append, List.length_singleton, List.mem_cons] at hid ⊢
      omega
  | ref hlt => exact Or.inl hid
  | chain hstack =>
      rw [List.length_modify] at hid
      exact Or.inl hid

theorem Moves.covered (h : a.Moves r b) (hv : a.Valid) (hkeep : ¬a.Rechains r) (hc : a.Covered) :
    b.Covered := by
  intro id hid
  rcases h.lt_or_mem id hid with hold | hnew
  · obtain ⟨waiting, hwaiting, hleads⟩ := hc id hold
    obtain ⟨left, hleft, hback⟩ := h.exists_leads hv waiting hwaiting
    have hkept : b.graph.Leads waiting id :=
      Relation.ReflTransGen.mono (fun x y => h.awaits_mono hv hkeep) _ _ hleads
    exact ⟨left, hleft, hback.trans hkept⟩
  · exact ⟨id, hnew, Relation.ReflTransGen.refl⟩

theorem Runs.covered (h : Runs a records b) (hv : a.Valid)
    (hkeep : a.Always (fun a r => ¬a.Rechains r) records) (hc : a.Covered) : b.Covered := by
  induction h with
  | nil a => exact hc
  | cons hmove _ ih =>
      obtain ⟨hr, hrest⟩ := hkeep
      exact ih (hmove.valid hv) (hrest _ hmove) (hmove.covered hv hr hc)

/-! ### Without chains -/

/-- Records that are no chains replace none. -/
theorem always_not_rechains (hchain : .chain ∉ records) :
    a.Always (fun a r => ¬a.Rechains r) records := by
  induction records generalizing a with
  | nil => trivial
  | cons r records ih =>
      obtain ⟨hr, hrecords⟩ := not_or.mp (List.mem_cons.not.mp hchain)
      exact ⟨fun hrechains => hr hrechains.1.symm, fun b _ => ih hrecords⟩

/-- No node has a chain. -/
def Unchained (a : Assembly) : Prop := ∀ x y, ¬a.graph.Chained x y

theorem start_unchained : start.Unchained := by
  rintro x y ⟨n, hn, -⟩
  cases hn

theorem produce_unchained (hu : a.Unchained) (hn : n.chain = none) :
    (a.produce n rest).Unchained := by
  rintro x y ⟨m, hm, hchain⟩
  rw [node?_graph] at hm
  rcases getElem?_produce.mp hm with hold | ⟨-, rfl⟩
  · exact hu x y ⟨m, by rwa [node?_graph], hchain⟩
  · rw [hn] at hchain
    cases hchain

theorem Moves.unchained (h : a.Moves r b) (hr : r ≠ .chain) (hu : a.Unchained) : b.Unchained := by
  cases h with
  | imm type value | binary op type hstack => exact produce_unchained hu rfl
  | ref hid => exact hu
  | chain hstack => exact absurd rfl hr

/-- Where there are no chains, one is led along operands. -/
theorem Unchained.reaches (hu : a.Unchained) (h : a.graph.Leads x y) : a.graph.Reaches x y :=
  Relation.ReflTransGen.mono
    (fun x y hawaits => (Graph.awaits_iff.mp hawaits).resolve_right (hu x y)) _ _ h

/-- The node created last is on the stack. -/
def HoldsLast (a : Assembly) : Prop := ∀ id, id + 1 = a.nodes.length → id ∈ a.stack

theorem start_holdsLast : start.HoldsLast := fun _ hid => absurd hid (Nat.succ_ne_zero _)

theorem Moves.holdsLast (h : a.Moves r b) (hr : r ≠ .chain) (hl : a.HoldsLast) : b.HoldsLast := by
  intro id hid
  cases h with
  | imm type value | binary op type hstack =>
      simp only [produce, List.length_append, List.length_singleton, List.mem_cons] at hid ⊢
      omega
  | ref hlt => exact List.mem_cons_of_mem _ (hl id hid)
  | chain hstack => exact absurd rfl hr

theorem Runs.unchained (h : Runs start records a) (hchain : .chain ∉ records) : a.Unchained :=
  h.invariant (fun hr hmove _ hu => hmove.unchained (ne_of_mem_of_not_mem hr hchain) hu)
    start_valid start_unchained

theorem Runs.holdsLast (h : Runs start records a) (hchain : .chain ∉ records) : a.HoldsLast :=
  h.invariant (fun hr hmove _ hl => hmove.holdsLast (ne_of_mem_of_not_mem hr hchain) hl)
    start_valid start_holdsLast

end Assembly

/--
**Decoding loses no work.**  Where the decoder succeeds and no record replaces a chain, every node
is led to from the root along operands and chains.  Where no record is a chain, the root is the node
created last, and the walk from it lists every node.
-/
theorem decodeFunction_covered {count : Nat} {g : IrGraph} {c c' : Cursor}
    (h : decodeFunction count c = .ok g c') :
    ∃ records root, Reader.many Record.read count c = .ok records c' ∧ g.root = some root ∧
      (Assembly.start.Always (fun a r => ¬a.Rechains r) records →
        ∀ id < g.size, g.Leads root id) ∧
      (.chain ∉ records → root + 1 = g.size ∧
        ∃ ids, g.reachable = .ok ids ∧ ids.Perm (List.range g.size)) := by
  obtain ⟨records, hmany, hbuild, -⟩ := Assembly.of_decodeFunction_ok h
  have hclosed := Assembly.closed_of_ofRecords hbuild
  obtain ⟨a, root, hruns, hstack, rfl⟩ := Assembly.runs_of_ofRecords hbuild
  have hcovered : Assembly.start.Always (fun a r => ¬a.Rechains r) records →
      ∀ id < a.nodes.length, a.graph.Leads root id := by
    intro hkeep id hid
    obtain ⟨waiting, hwaiting, hleads⟩ :=
      hruns.covered Assembly.start_valid hkeep Assembly.start_covered id hid
    rw [hstack] at hwaiting
    rwa [List.mem_singleton.mp hwaiting] at hleads
  refine ⟨records, root, hmany, rfl, hcovered, fun hchain => ?_⟩
  have hroot : root < a.nodes.length := hclosed.root root rfl
  refine ⟨?_, ?_⟩
  · -- The node created last is on the stack, and the root is all there is.
    obtain ⟨last, hlength⟩ := Nat.exists_eq_add_one.mpr (Nat.zero_lt_of_lt hroot)
    have hmem := hruns.holdsLast hchain last hlength.symm
    rw [hstack] at hmem
    rw [← List.mem_singleton.mp hmem]
    exact hlength.symm
  · obtain ⟨ids, hids, hbreadth⟩ := hclosed.exists_breadthFirst rfl
    refine ⟨ids, hids, ?_⟩
    rw [List.perm_ext_iff_of_nodup hbreadth.nodup List.nodup_range]
    intro id
    rw [hbreadth.mem_iff, List.mem_range]
    constructor
    · exact fun hreaches => hreaches.lt_size hclosed.operands hroot
    · intro hid
      exact (hruns.unchained hchain).reaches
        (hcovered (Assembly.always_not_rechains hchain) id hid)

/-- An immediate that is held by a chain only; and a sum of a shared immediate, without chains. -/
theorem decodeFunction_covered_shared :
    let chained : IrGraph :=
      { nodes :=
          #[{ opcode := .imm, type := .prim .u8, imms := [1], chain := some 1 },
            { opcode := .imm, type := .prim .u8, imms := [2] }]
        root := some 0 }
    let plain : IrGraph :=
      { nodes :=
          #[{ opcode := .imm, type := .prim .u8, imms := [1] },
            { opcode := .add, type := .prim .u8, operands := [0, 0] }]
        root := some 1 }
    decodeFunction 3 (Cursor.start [1, 1, 1, 1, 1, 2, 0x41]) = .ok chained ⟨7, []⟩ ∧
      chained.Leads 0 1 ∧
      decodeFunction 3 (Cursor.start [1, 1, 1, 0x40, 0, 2, 1]) = .ok plain ⟨7, []⟩ ∧
      ∃ ids, plain.reachable = .ok ids ∧ ids.Perm [0, 1] := by
  intro chained plain
  have hchained : decodeFunction 3 (Cursor.start [1, 1, 1, 1, 1, 2, 0x41])
      = .ok chained ⟨7, []⟩ := rfl
  have hplain : decodeFunction 3 (Cursor.start [1, 1, 1, 0x40, 0, 2, 1]) = .ok plain ⟨7, []⟩ := rfl
  obtain ⟨records, root, hrecords, hroot, hleads, -⟩ := decodeFunction_covered hchained
  cases hrecords
  cases hroot
  obtain ⟨records, root, hrecords, hroot, -, hlists⟩ := decodeFunction_covered hplain
  cases hrecords
  cases hroot
  refine ⟨hchained, hleads ?_ 1 (by decide), hplain, (hlists (by decide)).2⟩
  refine ⟨nofun, fun a ha => ?_⟩
  cases ha
  refine ⟨nofun, fun b hb => ?_⟩
  cases hb
  refine ⟨?_, fun _ _ => trivial⟩
  rintro ⟨-, first, top, rest, id, hstack, n, hn, hchain⟩
  cases hstack
  cases hn
  cases hchain

end Codegen
