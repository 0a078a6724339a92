/-
What a container declares has to be paid for in bytes.

A container says how many entries its pools have and how many records its functions, and
each of these numbers may be anything up to `2 ^ 64 - 1`.  None of them is believed: they
only say how often something is read that takes bytes each time.  `Costs` gives what a
reader answers a price and says that at least as many bytes are used up.  Prices add up
over a pool, so what has been read is at most as large as the bytes it was read from, and
a number that promises more than there are bytes left cannot be kept.

A record that creates a node takes two bytes and any other takes one.  So the records of a
function pay for the nodes twice, once as a record and once as a node.
-/
import Mathlib.Algebra.GroupWithZero.Nat
import Mathlib.Algebra.Order.BigOperators.Group.List
import Codegen.Proofs.Bytecode.Safety

namespace Codegen

open Reader

namespace Reader

variable {α : Type}

/-- Whatever `read` gives has used up as many bytes as its price says. -/
def Costs (read : Reader α) (price : α → Nat) : Prop :=
  ∀ c a c', read c = .ok a c' → price a + c'.remaining ≤ c.remaining

theorem Costs.many {item : Reader α} {price : α → Nat} (h : Costs item price) (count : Nat) :
    ∀ {c c' : Cursor} {as : List α}, many item count c = .ok as c' →
      as.length = count ∧ (as.map price).sum + c'.remaining ≤ c.remaining := by
  induction count with
  | zero =>
      intro c c' as hread
      cases hread
      simp
  | succ count ih =>
      intro c c' as hread
      obtain ⟨a, c₁, hhead, hread⟩ := of_bind_ok hread
      obtain ⟨later, c₂, htail, hread⟩ := of_bind_ok hread
      cases hread
      obtain ⟨hlength, hlater⟩ := ih htail
      have hfirst := h c a c₁ hhead
      simp only [List.length_cons, List.map_cons, List.sum_cons]
      omega

/-- Things that cost a byte each are no more than what they cost together. -/
theorem length_le_sum_map (price : α → Nat) (h : ∀ a, 1 ≤ price a) (as : List α) :
    as.length ≤ (as.map price).sum := by
  have hsum := List.length_le_sum_of_one_le (as.map price) (by simpa using fun a _ => h a)
  rwa [List.length_map] at hsum

theorem one_le_of_varint {v : UInt64} {c c' : Cursor} (h : varint c = .ok v c') :
    1 + c'.remaining ≤ c.remaining := by
  have hpos := Varint.length_encode_pos v
  have hle := length_varint h
  omega

theorem costs_block : Costs block fun data => 1 + data.length := by
  intro c data c' h
  have hpos := Varint.length_encode_pos (UInt64.ofNat data.length)
  obtain ⟨hle, -⟩ := length_block h
  rw [encodeBlock, List.length_append] at hle
  show 1 + data.length + c'.remaining ≤ c.remaining
  omega

end Reader

/-! ### Prices -/

def Record.price (r : Record) : Nat := 1 + r.created?.toList.length

def Constant.price (k : Constant) : Nat := 2 + k.data.length

def Function.price (f : Function) : Nat := 5 + 2 * f.graph.size

theorem costs_constant : Costs Constant.read Constant.price := by
  intro c k c' h
  obtain ⟨flags, c₁, hflags, h⟩ := of_bind_ok h
  have hone := length_map_bytes hflags
  dsimp only at h
  split at h
  · obtain ⟨size, c₂, hsize, h⟩ := of_bind_ok h
    cases h
    have hle := one_le_of_varint hsize
    show 2 + 0 + c'.remaining ≤ c.remaining
    omega
  · obtain ⟨data, c₂, hdata, h⟩ := of_bind_ok h
    cases h
    have hle : 1 + data.length + c'.remaining ≤ c₁.remaining := costs_block _ _ _ hdata
    show 2 + data.length + c'.remaining ≤ c.remaining
    omega

/-- A record that creates a node has a kind and a type. -/
theorem Record.price_le (r : Record) : r.price ≤ r.encode.length := by
  cases r with
  | imm type value =>
      have hkind := Varint.length_encode_pos immKind
      have htype := Varint.length_encode_pos (UInt64.ofNat type.raw)
      simp only [price, created?, encode, Option.toList_some, List.length_singleton,
        List.length_append]
      omega
  | binary op type =>
      have hkind := Varint.length_encode_pos (UInt64.ofNat op.raw)
      have htype := Varint.length_encode_pos (UInt64.ofNat type.raw)
      simp only [price, created?, encode, Option.toList_some, List.length_singleton,
        List.length_append]
      omega
  | ref id => exact length_encode_pos (.ref id)
  | chain => exact length_encode_pos .chain

theorem costs_record : Costs Record.read Record.price := by
  intro c r c' h
  have hprice := r.price_le
  have hle := length_read h
  omega

theorem sum_map_price (records : List Record) :
    (records.map Record.price).sum
      = records.length + (records.filterMap Record.created?).length := by
  induction records with
  | nil => rfl
  | cons r records ih =>
      rw [List.map_cons, List.sum_cons, ih, List.filterMap_cons, Record.price]
      cases r.created? with
      | none => simp; omega
      | some created => simp; omega

/-- A function costs a byte for each record and another for each node. -/
theorem of_decodeFunction_cost {count : Nat} {g : IrGraph} {c c' : Cursor}
    (h : decodeFunction count c = .ok g c') :
    count + g.size + c'.remaining ≤ c.remaining ∧ g.size ≤ count := by
  obtain ⟨records, hmany, hbuild, -⟩ := Assembly.of_decodeFunction_ok h
  obtain ⟨rfl, hcost⟩ := costs_record.many count hmany
  obtain ⟨hnodes, -⟩ := Assembly.of_ofRecords_ok hbuild
  have hsize : g.size = (records.filterMap Record.created?).length := by
    rw [← hnodes, List.length_map]
    rfl
  have hcreated := List.length_filterMap_le Record.created? records
  rw [sum_map_price] at hcost
  omega

theorem costs_function : Costs Function.read Function.price := by
  intro c f c' h
  obtain ⟨⟨flags, count⟩, c₁, hheader, h⟩ := of_bind_ok h
  obtain ⟨g, c₂, hdecode, h⟩ := of_bind_ok h
  cases h
  obtain ⟨flags', c₃, hflags, hheader⟩ := of_bind_ok hheader
  obtain ⟨number, c₄, hnumber, hheader⟩ := of_bind_ok hheader
  cases hheader
  have hfour := length_map_bytes hflags
  have hone := one_le_of_varint hnumber
  obtain ⟨hbody, hnodes⟩ := of_decodeFunction_cost hdecode
  show 5 + 2 * g.size + c'.remaining ≤ c.remaining
  omega

/-! ### Containers -/

theorem of_registerEntry_ok {f : Function} {index : Nat} {entry entry' : Option Nat} {c c' : Cursor}
    (h : f.registerEntry index entry c = .ok entry' c') : c' = c := by
  unfold Function.registerEntry at h
  split at h
  · split at h
    · cases h
    · cases h
      rfl
  · cases h
    rfl

theorem of_readPool_cost (count : Nat) :
    ∀ {index : Nat} {entry e : Option Nat} {fs : List Function} {c c' : Cursor},
      Function.readPool index entry count c = .ok (fs, e) c' →
      fs.length = count ∧ (fs.map Function.price).sum + c'.remaining ≤ c.remaining := by
  induction count with
  | zero =>
      intro index entry e fs c c' h
      cases h
      simp
  | succ count ih =>
      intro index entry e fs c c' h
      obtain ⟨f, c₁, hread, h⟩ := of_bind_ok h
      obtain ⟨entry', c₂, hentry, h⟩ := of_bind_ok h
      obtain ⟨⟨later, e'⟩, c₃, hlater, h⟩ := of_bind_ok h
      cases h
      obtain rfl := of_registerEntry_ok hentry
      obtain ⟨hlength, hcost⟩ := ih hlater
      have hfirst := costs_function _ _ _ hread
      simp only [List.length_cons, List.map_cons, List.sum_cons]
      omega

/-- A pool that was read whole has read whatever function it was about to read. -/
theorem exists_function_of_readPool (i : Nat) :
    ∀ {index k : Nat} {entry e e' : Option Nat} {fs fs' : List Function} {c c₁ c' : Cursor},
      Function.readPool index entry (i + (k + 1)) c = .ok (fs, e) c' →
      Function.readPool index entry i c = .ok (fs', e') c₁ →
      ∃ f c₂, Function.read c₁ = .ok f c₂ := by
  induction i with
  | zero =>
      intro index k entry e e' fs fs' c c₁ c' hall hfirst
      cases hfirst
      rw [Nat.zero_add] at hall
      obtain ⟨f, c₂, hread, -⟩ := of_bind_ok hall
      exact ⟨f, c₂, hread⟩
  | succ i ih =>
      intro index k entry e e' fs fs' c c₁ c' hall hfirst
      rw [Nat.add_right_comm] at hall
      obtain ⟨f, d, hread, hall⟩ := of_bind_ok hall
      obtain ⟨entry', d₁, hentry, hall⟩ := of_bind_ok hall
      obtain ⟨⟨later, _⟩, d₂, hlater, -⟩ := of_bind_ok hall
      obtain ⟨f', d', hread', hfirst⟩ := of_bind_ok hfirst
      cases hread.symm.trans hread'
      obtain ⟨entry'', d₁', hentry', hfirst⟩ := of_bind_ok hfirst
      cases hentry.symm.trans hentry'
      obtain ⟨⟨later', _⟩, d₂', hlater', hfirst⟩ := of_bind_ok hfirst
      cases hfirst
      exact ih hlater hlater'

/-- The places where the pools of a container start, as far as its functions. -/
structure Opens (data : List UInt8) (h : Header) (constants functions : Cursor) : Prop where
  header : Header.read (Cursor.start data) = .ok h constants
  pool : ∃ ks, Reader.many Constant.read h.constantCount.toNat constants = .ok ks functions

/-- There is one way to read them. -/
theorem Opens.eq {data : List UInt8} {h h' : Header}
    {constants constants' functions functions' : Cursor} (hopens : Opens data h constants functions)
    (hopens' : Opens data h' constants' functions') :
    h = h' ∧ constants = constants' ∧ functions = functions' := by
  obtain ⟨hheader, ks, hks⟩ := hopens
  obtain ⟨hheader', ks', hks'⟩ := hopens'
  cases hheader.symm.trans hheader'
  cases hks.symm.trans hks'
  exact ⟨rfl, rfl, rfl⟩

/-- A count of `n` is declared in `data`, and `left` bytes are left for what it counts: those behind
the header, those from a pool on, or those behind the header of a function. -/
inductive Declares (data : List UInt8) : Nat → Nat → Prop
  | header {h : Header} {constants : Cursor} {n : UInt64}
      (hheader : Header.read (Cursor.start data) = .ok h constants)
      (hn : n ∈ [h.constantCount, h.functionCount, h.extraCount]) :
      Declares data n.toNat constants.remaining
  | functions {h : Header} {constants functions : Cursor}
      (hopens : Opens data h constants functions) :
      Declares data h.functionCount.toNat functions.remaining
  | extra {h : Header} {constants functions extra : Cursor} {pool : List Function × Option Nat}
      (hopens : Opens data h constants functions)
      (hpool : Function.readPool 0 none h.functionCount.toNat functions = .ok pool extra) :
      Declares data h.extraCount.toNat extra.remaining
  | records {h : Header} {constants functions here body : Cursor}
      {pool : List Function × Option Nat} {i count : Nat} {flags : UInt32}
      (hopens : Opens data h constants functions)
      (hpool : Function.readPool 0 none i functions = .ok pool here)
      (hi : i < h.functionCount.toNat)
      (hcount : Function.readHeader here = .ok (flags, count) body) :
      Declares data count body.remaining

/-- How a container was read: what its pools hold and cost, and where they start. -/
structure Paid (data : List UInt8) (container : Container) (h : Header)
    (constants functions extra : Cursor) : Prop where
  opens : Opens data h constants functions
  pool : Function.readPool 0 none h.functionCount.toNat functions
    = .ok (container.functions, container.entrypoint) extra
  constantCount : container.constants.length = h.constantCount.toNat
  functionCount : container.functions.length = h.functionCount.toNat
  extraCount : container.extra.length = h.extraCount.toNat
  headerCost : 11 + constants.remaining ≤ data.length
  constantCost : (container.constants.map Constant.price).sum + functions.remaining
    ≤ constants.remaining
  functionCost : (container.functions.map Function.price).sum + extra.remaining
    ≤ functions.remaining
  extraCost : (container.extra.map fun entry => 1 + entry.length).sum ≤ extra.remaining

theorem header_cost {h : Header} {c c' : Cursor} (hread : Header.read c = .ok h c') :
    11 + c'.remaining ≤ c.remaining := by
  have hlength := length_header hread
  have hconstants := Varint.length_encode_pos h.constantCount
  have hfunctions := Varint.length_encode_pos h.functionCount
  have hextra := Varint.length_encode_pos h.extraCount
  omega

theorem exists_paid_of_parse {data : List UInt8} {container : Container}
    (h : Container.parse data = .ok container) :
    ∃ header constants functions extra, Paid data container header constants functions extra := by
  unfold Container.parse at h
  split at h
  · next container' c hread =>
      cases h
      obtain ⟨header, c₁, hheader, hread⟩ := of_bind_ok hread
      obtain ⟨constants, c₂, hconstants, hread⟩ := of_bind_ok hread
      obtain ⟨⟨functions, entrypoint⟩, c₃, hfunctions, hread⟩ := of_bind_ok hread
      obtain ⟨extra, c₄, hextra, hread⟩ := of_bind_ok hread
      cases hread
      obtain ⟨hconstantCount, hconstantCost⟩ := costs_constant.many _ hconstants
      obtain ⟨hfunctionCount, hfunctionCost⟩ := of_readPool_cost _ hfunctions
      obtain ⟨hextraCount, hextraCost⟩ := costs_block.many _ hextra
      refine ⟨header, c₁, c₂, c₃, ⟨hheader, constants, hconstants⟩, hfunctions, hconstantCount,
        hfunctionCount, hextraCount, header_cost hheader, hconstantCost, hfunctionCost, ?_⟩
      exact Nat.le_trans (Nat.le_add_right ..) hextraCost
  · cases h

/-- Each entry takes a byte, so no pool has more entries than there are bytes where it starts. -/
theorem Paid.count_le {data : List UInt8} {container : Container} {h : Header}
    {constants functions extra : Cursor} (hpaid : Paid data container h constants functions extra) :
    h.constantCount.toNat + functions.remaining ≤ constants.remaining ∧
      h.functionCount.toNat + extra.remaining ≤ functions.remaining ∧
      h.extraCount.toNat ≤ extra.remaining := by
  have hconstants := length_le_sum_map Constant.price (fun k => by unfold Constant.price; omega)
    container.constants
  have hfunctions := length_le_sum_map Function.price (fun f => by unfold Function.price; omega)
    container.functions
  have hextra := length_le_sum_map (fun entry : List UInt8 => 1 + entry.length)
    (fun entry => Nat.le_add_right ..) container.extra
  have hconstantCost := hpaid.constantCost
  have hfunctionCost := hpaid.functionCost
  have hextraCost := hpaid.extraCost
  rw [hpaid.constantCount] at hconstants
  rw [hpaid.functionCount] at hfunctions
  rw [hpaid.extraCount] at hextra
  omega

/-- In a container that is read, no count is larger than what is left. -/
theorem Declares.le {data : List UInt8} {container : Container} {n left : Nat}
    (hdeclares : Declares data n left) (hparse : Container.parse data = .ok container) :
    n ≤ left := by
  obtain ⟨h, constants, functions, extra, hpaid⟩ := exists_paid_of_parse hparse
  obtain ⟨hconstants, hfunctions, hextra⟩ := hpaid.count_le
  have hpool := hpaid.pool
  cases hdeclares with
  | header hheader hn =>
      cases hpaid.opens.header.symm.trans hheader
      simp only [List.mem_cons, List.not_mem_nil, or_false] at hn
      rcases hn with rfl | rfl | rfl
      · omega
      · omega
      · omega
  | functions hopens =>
      obtain ⟨rfl, rfl, rfl⟩ := hpaid.opens.eq hopens
      omega
  | extra hopens hpool' =>
      obtain ⟨rfl, rfl, rfl⟩ := hpaid.opens.eq hopens
      cases hpool.symm.trans hpool'
      exact hextra
  | @records h' constants' functions' here body pool i count flags hopens hpool' hi hcount =>
      obtain ⟨rfl, rfl, rfl⟩ := hpaid.opens.eq hopens
      obtain ⟨k, hk⟩ := Nat.exists_eq_add_of_lt hi
      rw [hk] at hpool
      obtain ⟨f, c, hread⟩ := exists_function_of_readPool i hpool hpool'
      obtain ⟨header', c₁, hcount', hread⟩ := of_bind_ok hread
      cases hcount.symm.trans hcount'
      obtain ⟨g, c₂, hdecode, -⟩ := of_bind_ok hread
      have hcost := (of_decodeFunction_cost hdecode).1
      omega

/--
**What a container declares is paid for by its bytes.**  A container that is read has just the
numbers of constants, functions and extra entries that its header declares, and there are at least
11 bytes for the header, two and its data for each constant, five and two a node for each function,
and one and its content for each extra entry.  If a count that is declared, of one of the pools or
of the records of a function, is larger than the number of bytes left for what it counts, there is
no container.  Fewer than 2 ^ 32 bytes are refused then; more may use up the ids of a function
first.
-/
theorem parse_paid (data : List UInt8) :
    (∀ container, Container.parse data = .ok container →
        (∃ h c, Header.read (Cursor.start data) = .ok h c ∧
          container.constants.length = h.constantCount.toNat ∧
          container.functions.length = h.functionCount.toNat ∧
          container.extra.length = h.extraCount.toNat) ∧
        11 + (container.constants.map fun k => 2 + k.data.length).sum
            + (container.functions.map fun f => 5 + 2 * f.graph.size).sum
            + (container.extra.map fun entry => 1 + entry.length).sum ≤ data.length) ∧
      ∀ n left, Declares data n left → left < n →
        ∃ stop, Container.parse data = .error stop ∧
          (data.length < 2 ^ 32 → ∃ e, stop = .reject e) := by
  refine ⟨fun container hparse => ?_, fun n left hdeclares hlarge => ?_⟩
  · obtain ⟨h, constants, functions, extra, hpaid⟩ := exists_paid_of_parse hparse
    refine ⟨⟨h, constants, hpaid.opens.header, hpaid.constantCount, hpaid.functionCount,
      hpaid.extraCount⟩, ?_⟩
    have hheader := hpaid.headerCost
    have hconstants : (container.constants.map fun k => 2 + k.data.length).sum
      + functions.remaining ≤ constants.remaining := hpaid.constantCost
    have hfunctions : (container.functions.map fun f => 5 + 2 * f.graph.size).sum
      + extra.remaining ≤ functions.remaining := hpaid.functionCost
    have hextra := hpaid.extraCost
    omega
  · cases hparse : Container.parse data with
    | ok container => exact absurd (hdeclares.le hparse) (Nat.not_le_of_lt hlarge)
    | error stop =>
        refine ⟨stop, rfl, fun hsize => ?_⟩
        cases stop with
        | reject e => exact ⟨e, rfl⟩
        | fault fault => exact absurd hparse (noFault_parse hsize fault)

/-- A container with two bytes of constant data, three nodes and an extra entry of one byte, which
has paid 28 of its 31 bytes; and a function that declares `2 ^ 63` records, of which the bytes left
hold one. -/
theorem parse_paid_records :
    let paid : List UInt8 :=
      [0x34, 0x12, 0x0d, 0xf0, 1, 0, 2, 0, 0x81, 0, 1, 1,
        1, 2, 0xaa, 0xbb,
        0, 0, 1, 0, 3, 1, 1, 5, 1, 1, 3, 2, 1,
        1, 0xee]
    let g : IrGraph :=
      { nodes :=
          #[{ opcode := .imm, type := .prim .u8, imms := [5] },
            { opcode := .imm, type := .prim .u8, imms := [3] },
            { opcode := .add, type := .prim .u8, operands := [0, 1] }]
        root := some 2 }
    let container : Container :=
      { major := 1
        minor := 2
        constants := [{ flags := ⟨1⟩, size := 2, data := [0xaa, 0xbb] }]
        functions := [{ flags := 0x10000, graph := g }]
        extra := [[0xee]]
        entrypoint := some 0 }
    let data : List UInt8 :=
      [0x34, 0x12, 0x0d, 0xf0, 1, 0, 2, 0, 0, 1, 0,
        0, 0, 1, 0, 0x80, 0x80, 0x80, 0x80, 0x80, 0x80, 0x80, 0x80, 0x80, 1,
        1, 1, 5]
    Container.parse paid = .ok container ∧
      11 + (2 + 2) + (5 + 2 * g.size) + (1 + 1) ≤ paid.length ∧
      Declares data (2 ^ 63) 3 ∧ ∃ e, Container.parse data = .error (.reject e) := by
  intro paid g container data
  have hread : Container.read (Cursor.start paid) = .ok container ⟨31, []⟩ := by decide +kernel
  have hparse : Container.parse paid = .ok container := by
    unfold Container.parse
    rw [hread]
  refine ⟨hparse, ((parse_paid paid).1 container hparse).2, ?_⟩
  have hheader : Header.read (Cursor.start data)
      = .ok ⟨1, 2, 0, 1, 0⟩ ((Cursor.start data).advance 11) := by decide +kernel
  have hcount : Function.readHeader ((Cursor.start data).advance 11)
      = .ok (0x10000, 2 ^ 63) ((Cursor.start data).advance 25) := by decide +kernel
  have hdeclares : Declares data (2 ^ 63) 3 :=
    .records ⟨hheader, [], rfl⟩ (i := 0) rfl Nat.one_pos hcount
  obtain ⟨stop, hstop, hrefused⟩ := (parse_paid data).2 _ _ hdeclares (by decide)
  obtain ⟨e, rfl⟩ := hrefused (by decide)
  exact ⟨hdeclares, e, hstop⟩

end Codegen
