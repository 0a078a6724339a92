/-
A listing shows the whole graph.

The lines of a listing are those of the nodes in order, and the words of a line are the
parts of its node.  So the listing is read by splitting it into lines and the lines into
words.  What is left is to tell which words belong to which part, since operands and
immediates stand in one row and the chain and the mark of the root may be missing.  The
first character decides: operands start with one sign and immediates with another, and
neither the word in front of a chain nor the mark of the root starts with either.
-/
import Codegen.Graph.Listing
import Codegen.Proofs.Graph.Construction
import Codegen.Proofs.InstructionSet

namespace Codegen

open Text

/-! ### Arguments with commas between them -/

/-- A comma behind each item but the last. -/
def commas : List String → List String
  | [] => []
  | [a] => [a]
  | a :: b :: rest => (a ++ ",") :: commas (b :: rest)

theorem commas_ne_nil (a : String) (as : List String) : commas (a :: as) ≠ [] := by
  cases as <;> simp [commas]

theorem commas_inj : ∀ {as bs : List String}, commas as = commas bs → as = bs
  | [], [], _ => rfl
  | [], b :: bs, h => absurd h.symm (commas_ne_nil b bs)
  | a :: as, [], h => absurd h (commas_ne_nil a as)
  | [a], [b], h => h
  | [a], b :: b' :: bs, h => absurd (List.cons.inj h).2.symm (commas_ne_nil b' bs)
  | a :: a' :: as, [b], h => absurd (List.cons.inj h).2 (commas_ne_nil a' as)
  | a :: a' :: as, b :: b' :: bs, h => by
      obtain ⟨hhead, htail⟩ := List.cons.inj h
      rw [(String.append_left_inj _).mp hhead, commas_inj htail]

/-- Each word is one of the items, with or without a comma. -/
theorem mem_commas {w : String} :
    ∀ {as : List String}, w ∈ commas as → ∃ a ∈ as, w = a ∨ w = a ++ ","
  | [a], h => ⟨a, List.mem_cons_self, Or.inl (List.mem_singleton.mp h)⟩
  | a :: b :: as, h => by
      rcases List.mem_cons.mp h with rfl | htail
      · exact ⟨a, List.mem_cons_self, Or.inr rfl⟩
      · obtain ⟨x, hx, hw⟩ := mem_commas htail
        exact ⟨x, List.mem_cons_of_mem a hx, hw⟩

theorem intercalate_eq_spaced (a : String) :
    ∀ as : List String, " " ++ ", ".intercalate (a :: as) = spaced (commas (a :: as))
  | [] => by simp [commas, spaced]
  | b :: as => by
      have hsep : ", " = "," ++ " " := rfl
      rw [commas, spaced_cons, ← intercalate_eq_spaced b as, String.intercalate_cons_cons, hsep]
      simp only [String.append_assoc]

/-! ### The words of a line -/

/-- The characters that words are made of. -/
def isInk (c : Char) : Bool := c != ' ' && c != '\n'

theorem IsName.ink {s : String} (h : IsName s) : Over isInk s := by
  intro c hc
  have hblank := h.avoids (show isNameChar ' ' = false by decide) c hc
  have hend := h.avoids (show isNameChar '\n' = false by decide) c hc
  simp only [isInk, Bool.and_eq_true]
  exact ⟨hblank, hend⟩

theorem NodeId.label_inj {a b : NodeId} (h : label a = label b) : a = b :=
  numeral_inj ((String.append_right_inj _).mp h)

theorem NodeId.ink_label (id : NodeId) : Over isInk (label id) :=
  over_append.mpr ⟨by decide, IsName.ink (isName_numeral id)⟩

/-- The mark of the root, in words. -/
def rootWords (isRoot : Bool) : List String := if isRoot then ["", ";", "root"] else []

namespace Node

section Arguments

variable {O T : Type} {n m : Node O T}

/-- Whether a word is an argument is told by its first character. -/
def isArgument (w : String) : Bool := w.toList.head? == some '%' || w.toList.head? == some '#'

theorem mem_arguments {a : String} (h : a ∈ n.arguments) :
    ∃ sign, (sign = "%" ∨ sign = "#") ∧ ∃ k : Nat, a = sign ++ toString k := by
  rcases List.mem_append.mp h with hoperand | himm
  · obtain ⟨id, -, rfl⟩ := List.mem_map.mp hoperand
    exact ⟨"%", Or.inl rfl, id, rfl⟩
  · obtain ⟨value, -, rfl⟩ := List.mem_map.mp himm
    exact ⟨"#", Or.inr rfl, value.toNat, rfl⟩

theorem isArgument_of_mem_commas {w : String} (h : w ∈ commas n.arguments) :
    isArgument w = true ∧ Over isInk w := by
  obtain ⟨a, ha, hw⟩ := mem_commas h
  obtain ⟨sign, hsign, k, rfl⟩ := mem_arguments ha
  have hnumber := IsName.ink (isName_numeral k)
  have hink : Over isInk sign := by
    rcases hsign with rfl | rfl <;> decide
  refine ⟨?_, ?_⟩
  · rcases hsign with rfl | rfl <;> rcases hw with rfl | rfl <;> simp [isArgument]
  · rcases hw with rfl | rfl
    · exact over_append.mpr ⟨hink, hnumber⟩
    · exact over_append.mpr ⟨over_append.mpr ⟨hink, hnumber⟩, by decide⟩

theorem arguments_inj (h : n.arguments = m.arguments) :
    n.operands = m.operands ∧ n.imms = m.imms := by
  have hoperand : ∀ n : Node O T, ∀ a ∈ n.operands.map NodeId.label,
      (a.toList.head? == some '%') = true := by
    intro n a ha
    obtain ⟨id, -, rfl⟩ := List.mem_map.mp ha
    simp [NodeId.label]
  have himm : ∀ n : Node O T, ∀ a ∈ (n.imms.map fun value => "#" ++ toString value).head?,
      (a.toList.head? == some '%') = false := by
    intro n a ha
    obtain ⟨value, -, rfl⟩ := List.mem_map.mp (List.mem_of_head? ha)
    simp
  obtain ⟨hoperands, himms⟩ :=
    append_inj_of_head? (hoperand n) (hoperand m) (himm n) (himm m) h
  refine ⟨(List.map_inj_right fun _ _ => NodeId.label_inj).mp hoperands,
    (List.map_inj_right fun v v' hv => ?_).mp himms⟩
  exact UInt64.toNat_inj.mp (numeral_inj ((String.append_right_inj _).mp hv))

end Arguments

variable {O T : Type} [InstructionSet O] [ToString T] {n m : Node O T}

/-- The parts of a node, in words. -/
def words (n : Node O T) : List String :=
  "=" :: InstructionSet.mnemonic n.opcode :: toString n.type ::
    (commas n.arguments ++ n.chain.toList.flatMap fun first => ["chain", NodeId.label first])

theorem listing_eq (id : NodeId) (n : Node O T) :
    n.listing id = NodeId.label id ++ spaced n.words := by
  have harguments : (if n.arguments.isEmpty then "" else " " ++ ", ".intercalate n.arguments)
      = spaced (commas n.arguments) := by
    cases n.arguments with
    | nil => rfl
    | cons a as => exact intercalate_eq_spaced a as
  have hchain : String.join (n.chain.toList.map fun first => " chain " ++ NodeId.label first)
      = spaced (n.chain.toList.flatMap fun first => ["chain", NodeId.label first]) := by
    cases n.chain with
    | none => rfl
    | some first =>
        have hword : " chain " = " " ++ "chain" ++ " " := rfl
        show String.join [" chain " ++ NodeId.label first] = spaced ["chain", NodeId.label first]
        rw [spaced_cons, spaced_cons, hword, String.join_cons]
        simp only [String.append_assoc]
        rfl
  have hequals : " = " = " " ++ "=" ++ " " := rfl
  rw [listing, harguments, hchain, words, spaced_cons, spaced_cons, spaced_cons, spaced_append,
    hequals]
  simp only [String.append_assoc]

theorem ink_of_mem_words (legible : Legible O T) {w : String} (h : w ∈ n.words) :
    Over isInk w := by
  simp only [words, List.mem_cons, List.mem_append] at h
  rcases h with rfl | rfl | rfl | harg | hchain
  · decide
  · exact IsName.ink (legible.mnemonic _)
  · exact IsName.ink (legible.type _)
  · exact (isArgument_of_mem_commas harg).2
  · obtain ⟨first, -, hfirst⟩ := List.mem_flatMap.mp hchain
    simp only [List.mem_cons, List.not_mem_nil, or_false] at hfirst
    rcases hfirst with rfl | rfl
    · decide
    · exact NodeId.ink_label first

/-- Behind the arguments comes no word that could be one. -/
theorem not_isArgument_of_head? {chain : Option NodeId} {isRoot : Bool} :
    ∀ w ∈ (chain.toList.flatMap (fun first => ["chain", NodeId.label first]) ++
      rootWords isRoot).head?, isArgument w = false := by
  intro w hw
  cases chain with
  | none =>
      cases isRoot <;> simp [rootWords] at hw
      subst hw
      rfl
  | some first =>
      obtain rfl : "chain" = w := Option.some.inj hw
      rfl

/-- The words of a node and the mark of the root tell both. -/
theorem words_inj (legible : Legible O T) {r s : Bool}
    (h : n.words ++ rootWords r = m.words ++ rootWords s) : n = m ∧ r = s := by
  simp only [words, List.cons_append, List.cons.injEq, true_and, List.append_assoc] at h
  obtain ⟨hopcode, htype, hrest⟩ := h
  obtain ⟨harguments, hrest⟩ := append_inj_of_head?
    (fun w hw => (isArgument_of_mem_commas hw).1) (fun w hw => (isArgument_of_mem_commas hw).1)
    not_isArgument_of_head? not_isArgument_of_head? hrest
  obtain ⟨hoperands, himms⟩ := arguments_inj (commas_inj harguments)
  have hmark : n.chain = m.chain ∧ r = s := by
    cases hn : n.chain <;> cases hm : m.chain <;> cases r <;> cases s <;>
      simp [hn, hm, rootWords] at hrest ⊢
    · exact NodeId.label_inj hrest
    · exact NodeId.label_inj hrest
  obtain ⟨hchain, hroot⟩ := hmark
  refine ⟨?_, hroot⟩
  exact Node.ext (legible.mnemonic_inj _ _ hopcode) (legible.type_inj _ _ htype) hoperands himms
    hchain

end Node

namespace Graph

variable {O T : Type} [InstructionSet O] [ToString T] {g h : Graph O T} {id : NodeId} {n : Node O T}

/-- The line of a node. -/
def lineOf (g : Graph O T) (id : NodeId) (n : Node O T) : String :=
  NodeId.label id ++ spaced (n.words ++ rootWords (g.root = some id))

/-- The lines of a listing. -/
def lines (g : Graph O T) : List String := g.nodes.toList.zipIdx.map fun (n, id) => g.lineOf id n

theorem listing_eq_unlines (g : Graph O T) : g.listing = unlines g.lines := by
  have hline : ∀ (n : Node O T) (id : NodeId),
      n.listing id ++ (if g.root = some id then "  ; root" else "") = g.lineOf id n := by
    intro n id
    rw [lineOf, spaced_append, ← String.append_assoc, ← Node.listing_eq]
    by_cases hroot : g.root = some id
    · simp only [hroot, if_pos, rootWords, decide_true]
      rfl
    · simp only [hroot, if_false, rootWords, decide_false]
      rfl
  simp only [listing, unlines, lines, List.map_map, Function.comp_def, hline]

theorem ink_of_mem_line (legible : Legible O T) {w : String}
    (h : w ∈ n.words ++ rootWords (g.root = some id)) : Over isInk w := by
  rcases List.mem_append.mp h with hnode | hroot
  · exact Node.ink_of_mem_words legible hnode
  · unfold rootWords at hroot
    split at hroot
    · simp only [List.mem_cons, List.not_mem_nil, or_false] at hroot
      rcases hroot with rfl | rfl | rfl <;> decide
    · cases hroot

theorem over_lineOf (legible : Legible O T) (g : Graph O T) (id : NodeId) (n : Node O T) :
    Over (· != '\n') (g.lineOf id n) := by
  have hink : ∀ c, isInk c = true → (c != '\n') = true := by simp [isInk]
  exact over_append.mpr ⟨(NodeId.ink_label id).mono hink,
    over_spaced (by decide) fun w hw => (ink_of_mem_line legible hw).mono hink⟩

/-- The line of a node tells the node, and whether it is the root. -/
theorem lineOf_inj (legible : Legible O T) {m : Node O T} (heq : g.lineOf id n = h.lineOf id m) :
    n = m ∧ (g.root = some id ↔ h.root = some id) := by
  have hink : ∀ c, isInk c = true → (c != ' ') = true := by simp +contextual [isInk]
  have hwords : ∀ (g : Graph O T) (n : Node O T),
      Text.words (g.lineOf id n) = NodeId.label id :: (n.words ++ rootWords (g.root = some id)) :=
    fun g n => words_spaced ((NodeId.ink_label id).mono hink)
      fun w hw => (ink_of_mem_line legible hw).mono hink
  have heq := congrArg Text.words heq
  rw [hwords, hwords, List.cons.injEq] at heq
  obtain ⟨hnode, hroot⟩ := Node.words_inj legible heq.2
  exact ⟨hnode, by simpa using hroot⟩

/-! ### The lines of a listing -/

theorem getElem?_lines (g : Graph O T) (id : NodeId) :
    g.lines[id]? = (g.node? id).map (g.lineOf id) := by
  simp [lines, node?, List.getElem?_zipIdx, Function.comp_def]

theorem over_of_mem_lines (legible : Legible O T) {l : String} (hl : l ∈ g.lines) :
    Over (· != '\n') l := by
  obtain ⟨⟨n, id⟩, -, rfl⟩ := List.mem_map.mp hl
  exact over_lineOf legible g id n

/-- A graph whose root is a node, if it has one, is told by its listing. -/
theorem listing_inj (legible : Legible O T) (hg : ∀ id, g.root = some id → id < g.size)
    (hh : ∀ id, h.root = some id → id < h.size) (heq : g.listing = h.listing) : g = h := by
  rw [listing_eq_unlines, listing_eq_unlines] at heq
  have hlines : g.lines = h.lines :=
    unlines_inj (fun _ => over_of_mem_lines legible) (fun _ => over_of_mem_lines legible) heq
  have hline : ∀ id, (g.node? id).map (g.lineOf id) = (h.node? id).map (h.lineOf id) := by
    intro id
    rw [← getElem?_lines, ← getElem?_lines, hlines]
  have hnode : ∀ id, g.node? id = h.node? id ∧
      (id < g.size → (g.root = some id ↔ h.root = some id)) := by
    intro id
    have hid := hline id
    cases hn : g.node? id with
    | none =>
        rw [hn, Option.map_none, eq_comm, Option.map_eq_none_iff] at hid
        exact ⟨hid.symm, fun hlt => absurd hlt (Nat.not_lt_of_le (node?_eq_none_iff.mp hn))⟩
    | some n =>
        rw [hn, Option.map_some, eq_comm, Option.map_eq_some_iff] at hid
        obtain ⟨m, hm, heq⟩ := hid
        obtain ⟨rfl, hroot⟩ := lineOf_inj legible heq
        exact ⟨hm.symm, fun _ => hroot.symm⟩
  have hnodes : g.nodes = h.nodes := Array.ext_getElem? fun id => (hnode id).1
  have hsize : g.size = h.size := congrArg Array.size hnodes
  have hroot : g.root = h.root := by
    refine Option.ext fun id => ⟨fun hr => ?_, fun hr => ?_⟩
    · exact ((hnode id).2 (hg id hr)).mp hr
    · exact ((hnode id).2 (hsize ▸ hh id hr)).mpr hr
  exact Graph.ext hnodes hroot

/--
**A listing determines the graph.**  Two graphs over the same instructions, target-independent or
those of the machine, whose edges may lead anywhere and whose roots are nodes if they have any, are
listed alike just if they are the same: node by node, with opcode, type, operands, immediates and
chain, and with the same root.
-/
theorem listing_determines :
    (∀ g h : IrGraph, (∀ id, g.root = some id → id < g.size) →
        (∀ id, h.root = some id → id < h.size) → (g.listing = h.listing ↔ g = h)) ∧
      (∀ g h : X86.MachineGraph, (∀ id, g.root = some id → id < g.size) →
        (∀ id, h.root = some id → id < h.size) → (g.listing = h.listing ↔ g = h)) := by
  refine ⟨fun g h hg hh => ⟨listing_inj legible_ir hg hh, ?_⟩,
    fun g h hg hh => ⟨listing_inj X86.legible hg hh, ?_⟩⟩
  · rintro rfl
    rfl
  · rintro rfl
    rfl

/-- An operand and an immediate that are written with the same digits, and a graph and the same
graph without its root, are not listed alike. -/
theorem listing_determines_marked :
    let used : IrGraph :=
      { nodes :=
          #[{ opcode := .imm, type := .descriptor 1, imms := [12], chain := some 7 },
            { opcode := .add, type := .prim .ptrU8, operands := [0, 12], imms := [3] }]
        root := some 1 }
    let carried : IrGraph :=
      { nodes :=
          #[{ opcode := .imm, type := .descriptor 1, imms := [12], chain := some 7 },
            { opcode := .add, type := .prim .ptrU8, operands := [0], imms := [12, 3] }]
        root := some 1 }
    let machine : X86.MachineGraph :=
      { nodes := #[{ opcode := .movRi, type := .u8, imms := [1] }], root := some 0 }
    used.listing ≠ carried.listing ∧ machine.listing ≠ { machine with root := none }.listing := by
  intro used carried machine
  have hused : ∀ id, used.root = some id → id < used.size := by
    rintro id ⟨⟩
    decide
  have hcarried : ∀ id, carried.root = some id → id < carried.size := by
    rintro id ⟨⟩
    decide
  have hmachine : ∀ id, machine.root = some id → id < machine.size := by
    rintro id ⟨⟩
    decide
  refine ⟨fun heq => ?_, fun heq => ?_⟩
  · exact absurd ((listing_determines.1 used carried hused hcarried).mp heq) (by decide)
  · exact absurd ((listing_determines.2 machine _ hmachine (by simp)).mp heq) (by decide)

end Graph

end Codegen
