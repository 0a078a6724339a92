/-
No bytes lead to a fault.

The rules of use are all about nodes that have to be there, and what has been read keeps
them: neither the root nor an operand of a function leads out of its graph.  That is all
that compiling needs.  Every node has its operands to match against, what a pattern has
recorded is an operand or the node itself, and so the machine graph is closed as well and
can be walked and drawn like the graph it was made for.

Ids have 32 bits, which is a rule too: a graph with more nodes could not number them.
Fewer than 2 ^ 32 bytes hold fewer nodes than that, at every point of reading a function,
and compiling starts from as many placeholders as there are nodes.
-/
import Codegen.Proofs.Bytecode.Safety
import Codegen.Proofs.X86.Forms

namespace Codegen

namespace Graph

/-- General pointers lead nowhere else. -/
theorem Closed.generalizePointers {g : IrGraph} (h : g.Closed) : g.generalizePointers.Closed := by
  refine ⟨?_, ?_⟩
  · rw [size_generalizePointers]
    exact h.root
  · intro id n hn
    obtain ⟨n', hn', rfl⟩ := of_node?_generalizePointers hn
    rw [size_generalizePointers]
    exact h.operands id n' hn'

end Graph

namespace X86

variable {g : IrGraph} {id : NodeId} {n : IrNode} {type : RegType}

/-! ### Compiling a closed graph -/

theorem noFault_required {α : Type} (x : Option α) : NoFault (required id n x) := by
  cases x with
  | none => exact NoFault.reject _
  | some a => exact NoFault.ok a

theorem noFault_lower (hn : g.node? id = some n) (hrange : ∀ operand ∈ n.operands, operand < g.size)
    (htype : types.lower? n.type = some type) : NoFault (selector.lower g id n) := by
  rw [lower_eq hn hrange htype]
  split
  · exact NoFault.reject _
  · exact (noFault_required _).mapError _

theorem noFault_compile (h : g.Closed) : NoFault (compile.run g) := by
  rw [compile_run]
  refine (Pass.noFault_checkTypes _).bind fun g' hcheck => ?_
  obtain ⟨rfl, htypes⟩ := Pass.of_checkTypes_ok hcheck
  have hclosed := h.generalizePointers
  refine Selector.noFault_select hclosed.root fun id n hn => ?_
  obtain ⟨type, htype⟩ := types.exists_lower? (htypes id n hn)
  exact noFault_lower hn (hclosed.operands id n hn) htype

theorem Compiled.closed {t : MachineGraph} (h : Compiled g t) (hclosed : g.Closed) : t.Closed := by
  refine ⟨?_, ?_⟩
  · rw [h.root, h.size]
    exact hclosed.root
  · intro id m hm operand hmem
    obtain ⟨n, form, type, hn, -, htakes, hnode⟩ := h.exists_source hm
    rw [h.size]
    exact hclosed.operands id n hn operand (mem_operands_of_node? htakes hnode hmem)

/-! ### From bytes to machine graphs -/

/--
**No bytes lead to a fault.**  Whatever fewer than 2 ^ 32 bytes are, reading them gives a container
or refuses them and stays inside the bytes.  So does reading a function wherever there is a place
for one, and however far it gets there, there is an id for one more node.  If there is a container,
its entry point is one of its functions, and each function can be walked and drawn and is compiled
or refused; there are ids for the placeholders of its machine graph, and selection in place ends as
selection does.  The machine graph can be walked and drawn, too.
-/
theorem no_bytes_fault {data : List UInt8} (hsize : data.length < 2 ^ 32) :
    NoFault (Container.parse data) ∧
      Reader.Lands data (Container.read (Cursor.start data)) ∧
      (∀ c, c.Within data → ∀ count, Reader.Lands data (decodeFunction count c) ∧
        ∀ m c', Machine.start.run 0 count c = .ok m c' → ∃ id, m.graph.nextId = .ok id) ∧
      ∀ container, Container.parse data = .ok container →
        (∃ f, container.entryFunction = .ok f) ∧
        ∀ fn ∈ container.functions,
          (∃ ids, fn.graph.reachable = .ok ids) ∧ (∃ text, fn.graph.toDot = .ok text) ∧
          NoFault (compile.run fn.graph) ∧
          (∀ count ≤ fn.graph.size, ∃ blank : MachineGraph,
            Graph.placeholders count = .ok blank ∧ ∃ id, blank.nextId = .ok id) ∧
          selector.selectInPlace fn.graph.generalizePointers
            = selector.select fn.graph.generalizePointers ∧
          ∀ t, compile.run fn.graph = .ok t →
            (∃ ids, t.reachable = .ok ids) ∧ ∃ text, t.toDot = .ok text := by
  refine ⟨noFault_parse hsize, safe_container hsize _ (Cursor.start_within data), ?_, ?_⟩
  · intro c hc count
    refine ⟨Assembly.safe_decodeFunction hsize count c hc, fun m c' hrun => ?_⟩
    have hnodes := Assembly.size_le_of_run_ok hrun
    have hbytes := hc.remaining_le
    exact ⟨_, Graph.nextId_of_lt (by omega)⟩
  · intro container hparse
    obtain ⟨d, hdescribes, hlength⟩ := exists_describes_of_parse hparse
    refine ⟨hdescribes.exists_entryFunction, ?_⟩
    intro fn hfn
    obtain ⟨hclosed, hnodes⟩ := hdescribes.closed hfn
    have hfew : fn.graph.size < 2 ^ 32 := by omega
    refine ⟨hclosed.exists_reachable, hclosed.exists_toDot, noFault_compile hclosed, ?_, ?_, ?_⟩
    · intro count hcount
      refine ⟨_, Graph.placeholders_of_le (by omega), _, Graph.nextId_of_lt ?_⟩
      rw [Graph.size, Array.size_replicate]
      omega
    · refine Selector.selectInPlace_eq ?_
      rw [Graph.size_generalizePointers]
      exact Nat.le_of_lt hfew
    · intro t ht
      have htarget := (compiled_of_ok hclosed.operands ht).closed hclosed
      exact ⟨htarget.exists_reachable, htarget.exists_toDot⟩

/-- A function with an operand used twice and a chain that leads forward. -/
theorem no_bytes_fault_chained :
    let data : List UInt8 :=
      [0x34, 0x12, 0x0d, 0xf0, 1, 0, 0, 0, 0, 1, 0,
        0, 0, 1, 0, 5, 1, 1, 7, 0x40, 0, 2, 1, 1, 2, 9, 0, 0x41]
    let g : IrGraph :=
      { nodes :=
          #[{ opcode := .imm, type := .prim .u8, imms := [7] },
            { opcode := .add, type := .prim .u8, operands := [0, 0], chain := some 2 },
            { opcode := .imm, type := .prim .u16, imms := [9] }]
        root := some 1 }
    let container : Container :=
      { major := 1
        minor := 0
        constants := []
        functions := [{ flags := 0x10000, graph := g }]
        extra := []
        entrypoint := some 0 }
    let t : MachineGraph :=
      { nodes :=
          #[{ opcode := .movRi, type := .u8, imms := [7] },
            { opcode := .addRi, type := .u8, operands := [0], imms := [7], chain := some 2 },
            { opcode := .movRi, type := .u16, imms := [9] }]
        root := some 1 }
    data.length < 2 ^ 32 ∧ Container.parse data = .ok container ∧ compile.run g = .ok t ∧
      (∃ f, container.entryFunction = .ok f) ∧
      (∃ ids, g.reachable = .ok ids) ∧ (∃ text, g.toDot = .ok text) ∧
      (∃ ids, t.reachable = .ok ids) ∧ ∃ text, t.toDot = .ok text := by
  intro data g container t
  have hsize : data.length < 2 ^ 32 := by decide
  have hread : Container.read (Cursor.start data) = .ok container ⟨28, []⟩ := by decide +kernel
  have hparse : Container.parse data = .ok container := by
    unfold Container.parse
    rw [hread]
  have hrun : compile.run g = .ok t := by with_unfolding_all rfl
  obtain ⟨-, -, -, hcontainer⟩ := no_bytes_fault hsize
  obtain ⟨hentry, hfunctions⟩ := hcontainer container hparse
  obtain ⟨hreachable, hdot, -, -, -, hcompiled⟩ := hfunctions _ (List.mem_singleton_self _)
  exact ⟨hsize, hparse, hrun, hentry, hreachable, hdot, hcompiled t hrun⟩

end X86

end Codegen
