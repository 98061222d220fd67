import Mathlib
import EightBit.Proofs.Instruction
import EightBit.Proofs.Layout
import EightBit.Proofs.Overlay

/-!
# Disassembly and assembly are inverse

The rows of a disassembled range, written as lines of source text, are assembled to the same rows and bytes.
Both sides are compared with the list of instructions in the range: the walk of the disassembly lists them,
and each pass of the assembler keeps the list.

* `Mos6502.placed`: instructions one after the other, with their addresses.
* `Mos6502.exists_of_walk`: a walk that reaches its end lists the instructions of the range.
* `Mos6502.parse_source`: the statements of their source text.
* `Mos6502.assemble_statements`: the rows of these statements.
* `Mos6502.disassemble_assemble`: disassembling and assembling again.
-/

namespace EightBit

/-- A row without its labels and its place in a source. -/
def Row.bare (r : Row) : Row := { r with labels := [], loc := {} }

/-- Rows as source text, one line each. -/
def Listing.source (rows : Listing) : Text := rows.flatMap fun r => 0x20 :: r.text ++ [0x0A]

theorem Listing.source_map_bare (rows : Listing) : Listing.source (rows.map Row.bare) = rows.source := by
  rw [source, source, List.flatMap_map]
  rfl

namespace Mos6502

/-- Instructions one after the other from an address on. -/
def placed : UInt64 → List CodedInstruction → List (CodedInstruction × UInt64)
  | _, [] => []
  | addr, i :: rest => (i, addr) :: placed (addr + i.length.toUInt64) rest

/-- The number of bytes of some instructions. -/
def totalLength (is : List CodedInstruction) : Nat := (is.map CodedInstruction.length).sum

theorem totalLength_cons (i : CodedInstruction) (is : List CodedInstruction) :
    totalLength (i :: is) = i.length + totalLength is := by
  simp [totalLength]

theorem length_flatMap_bytes (is : List CodedInstruction) :
    (is.flatMap CodedInstruction.bytes).length = totalLength is := by
  rw [List.length_flatMap, totalLength]
  exact congrArg List.sum (List.map_congr_left fun i _ => i.length_bytes)

theorem toNat_add_length {addr : UInt64} {n : Nat} (hn : n ≤ 2 ^ 16) (haddr : addr.toNat ≤ 2 ^ 16) :
    (addr + n.toUInt64).toNat = addr.toNat + n := by
  rw [UInt64.toNat_add, Word.toNat_toUInt64 (by omega)]
  omega

/-! ## The walk lists instructions -/

/-- What is shown does not change if the next address is cut to its bits before. -/
theorem Addressing.shown_and_mask (a : Addressing) (value next : UInt64) :
    a.shown value (next &&& architecture.addressMask) architecture.addressMask =
      a.shown value next architecture.addressMask := by
  unfold Addressing.shown
  split_ifs
  · exact Word.and_mask_add_and_mask next _ (by decide)
  · rfl

/-- A row of the disassembly is the row of an instruction, which has the bytes there. -/
theorem exists_of_decode (m : Memory) (labels : UInt64 → List Text) {addr : UInt64} {e : Entry}
    (hdecode : table.decode? (m.read addr) = some e) (haddr : addr.toNat ≤ 2 ^ 16) :
    ∃ i : CodedInstruction, i.length = e.mode.length ∧ m.readBytes addr i.length = i.bytes ∧
      (Disassembly.row architecture m labels addr e).bare = i.row addr := by
  obtain ⟨op, a, -, rfl⟩ := exists_of_decode? hdecode
  have hmem : ⟨op.name, a.mode, m.read addr⟩ ∈ table.entries := by
    unfold Table.decode? at hdecode
    exact List.mem_of_find?_eq_some hdecode
  have hlen : 0 < a.length ∧ a.length ≤ 3 := by cases a <;> decide
  have hcode : m.readBytes addr a.length = m.read addr :: m.readBytes (addr + 1) (a.length - 1) := by
    obtain ⟨n, hn⟩ := Nat.exists_eq_add_of_lt hlen.1
    rw [hn, Nat.zero_add, Memory.readBytes, Nat.add_sub_cancel]
  have hshort : (m.readBytes (addr + 1) (a.length - 1)).length ≤ 8 := by
    rw [Memory.length_readBytes]
    omega
  have hlt := Word.toNat_ofLittleBytes_lt _ hshort
  rw [Memory.length_readBytes] at hlt
  -- The table says which instruction it is, the bytes behind the opcode are its operand.
  let i : CodedInstruction :=
    ⟨op, a, m.read addr, architecture.decode (m.readBytes (addr + 1) (a.length - 1)), hmem, hlt⟩
  have hbytes : m.readBytes addr i.length = i.bytes := by
    have hencode := ByteOrder.encode_decode architecture.order _ hshort
    rw [Memory.length_readBytes] at hencode
    rw [show i.length = a.length from rfl, hcode]
    exact congrArg (m.read addr :: ·) hencode.symm
  have hnext : (addr + a.length.toUInt64).toNat = addr.toNat + a.length :=
    toNat_add_length (by omega) haddr
  have hslice : m.slice addr (addr + a.mode.length.toUInt64) = i.bytes :=
    (m.slice_eq_readBytes hnext.symm).trans hbytes
  -- The walk cuts the next address to the address space before it shows the operand; a row does not.
  have hoperand : a.mode.render (architecture.decode (i.bytes.drop 1))
      ((addr + a.mode.length.toUInt64) &&& architecture.addressMask) architecture.addressMask =
        (i.row addr).operand := by
    have hdrop : i.bytes.drop 1 = m.readBytes (addr + 1) (a.length - 1) := by
      rw [← hbytes, show i.length = a.length from rfl, hcode]
      rfl
    rw [hdrop, a.render_mode, a.shown_and_mask]
    exact (a.render_mode _ _ _).symm
  refine ⟨i, rfl, hbytes, ?_⟩
  rw [Disassembly.row, Row.bare]
  simp only [hslice, hoperand]
  rfl

/-- A walk that reaches its end lists the instructions of the range. -/
theorem exists_of_walk (m : Memory) (labels : UInt64 → List Text) {stop : UInt64}
    (hstop : stop.toNat ≤ 2 ^ 16) {fuel : Nat} {addr : UInt64} (hfuel : stop.toNat - addr.toNat ≤ fuel)
    (hle : addr ≤ stop)
    (hreached : (Disassembly.walk architecture m labels stop fuel addr).ending = .reached) :
    ∃ is, (Disassembly.walk architecture m labels stop fuel addr).rows.map Row.bare =
        (placed addr is).map (fun p => p.1.row p.2) ∧
      addr.toNat + totalLength is = stop.toNat ∧
      m.readBytes addr (totalLength is) = is.flatMap CodedInstruction.bytes := by
  rw [UInt64.le_iff_toNat_le] at hle
  -- The fuel is never spent before the end: every instruction takes at least one byte of the range.
  induction fuel generalizing addr with
  | zero => exact ⟨[], rfl, by simp [totalLength]; omega, rfl⟩
  | succ fuel ih =>
    rw [Disassembly.walk] at hreached ⊢
    split_ifs at hreached ⊢ with hdone
    · rw [UInt64.le_iff_toNat_le] at hdone
      exact ⟨[], rfl, by simp [totalLength]; omega, rfl⟩
    · rw [UInt64.le_iff_toNat_le] at hdone
      rw [table_architecture] at hreached ⊢
      cases hdecode : table.decode? (m.read addr) with
      | none => simp [hdecode] at hreached
      | some e =>
        obtain ⟨i, hlen, hbytes, hrow⟩ := exists_of_decode m labels hdecode (by omega)
        have hpos := i.length_pos
        have hshort := i.length_le
        have hnext : (addr + i.length.toUInt64).toNat = addr.toNat + i.length :=
          toNat_add_length (by omega) (by omega)
        simp only [hdecode, ← hlen] at hreached ⊢
        -- An instruction that passes the end or wraps around stops the walk early.
        split_ifs at hreached ⊢ with hover hwrap
        rw [UInt64.lt_iff_toNat_lt] at hover
        obtain ⟨is, hrows, htotal, hread⟩ := @ih (addr + i.length.toUInt64) (by omega) (by omega) hreached
        have hsum := totalLength_cons i is
        refine ⟨i :: is, ?_, by omega, ?_⟩
        · rw [List.map_cons, hrow, hrows]
          rfl
        · rw [hsum, Memory.readBytes_add, hbytes, hread, List.flatMap_cons]

/-! ## The source text of instructions -/

/-- The lexemes of the lines of instructions. -/
def sourceLexemes (ps : List (CodedInstruction × UInt64)) : List Lexeme := ps.flatMap fun p => p.1.line p.2

theorem source_rows (ps : List (CodedInstruction × UInt64)) :
    Listing.source (ps.map fun p => p.1.row p.2) = (sourceLexemes ps).flatMap Lexeme.text := by
  rw [Listing.source, sourceLexemes, List.flatMap_map, List.flatMap_assoc]
  refine congrArg (ps.flatMap ·) ?_
  funext p
  rw [CodedInstruction.text_line]

theorem readsAll_sourceLexemes (ps : List (CodedInstruction × UInt64)) :
    Scan.ReadsAll dialect (sourceLexemes ps) [] := by
  rw [sourceLexemes, List.flatMap_def]
  refine Scan.readsAll_flatten fun l hl rest => ?_
  obtain ⟨p, -, rfl⟩ := List.mem_map.1 hl
  exact p.1.readsAll_line p.2 rest

theorem isInert_sourceLexemes (ps : List (CodedInstruction × UInt64)) :
    ∀ l ∈ sourceLexemes ps, isInert l := by
  intro l hl
  obtain ⟨p, -, hl⟩ := List.mem_flatMap.1 hl
  exact p.1.isInert_line p.2 l hl

end Mos6502

/-- A line ends at its newline. -/
theorem Line.ofTokens_append {tokens : List Token} (htokens : ∀ t ∈ tokens, t.isNewline = false)
    {newline : Token} (hnewline : newline.isNewline) (rest : List Token) :
    Line.ofTokens (tokens ++ newline :: rest) = ⟨tokens, some newline⟩ :: Line.ofTokens rest := by
  induction tokens with
  | nil => simp [Line.ofTokens, hnewline]
  | cons t tokens ih =>
    have ht := htokens t List.mem_cons_self
    rw [List.cons_append, Line.ofTokens, ih fun u hu => htokens u (List.mem_cons_of_mem t hu)]
    simp [ht]

namespace Token

theorem isSpace_of_lexeme {t : Token} {l : Lexeme} (h : t.lexeme = l) : t.isSpace = l.kind.isSpace := by
  rw [← h]
  rfl

theorem isNewline_of_lexeme {t : Token} {l : Lexeme} (h : t.lexeme = l) : t.isNewline = (l.kind == .newline) := by
  rw [← h]
  rfl

theorem not_isNewline_of_mem {ts : List Token} {ls : List Lexeme} (h : ts.map lexeme = ls)
    (hls : ∀ l ∈ ls, l.kind ≠ .newline) : ∀ t ∈ ts, t.isNewline = false := by
  intro t ht
  rw [isNewline_of_lexeme rfl]
  exact beq_false_of_ne (hls t.lexeme (h ▸ List.mem_map_of_mem ht))

end Token

/-- The lines of tokens that were written line by line. -/
theorem Line.ofTokens_lexemes {lines : List (List Lexeme)} (hlines : ∀ l ∈ lines, ∀ x ∈ l, x.kind ≠ .newline)
    {tokens : List Token}
    (h : tokens.map Token.lexeme = lines.flatMap fun l => l ++ [⟨.newline, [0x0A]⟩]) :
    (Line.ofTokens tokens).map (fun l => l.tokens.map Token.lexeme) = lines := by
  induction lines generalizing tokens with
  | nil =>
    obtain rfl : tokens = [] := List.map_eq_nil_iff.1 h
    rfl
  | cons l lines ih =>
    rw [List.flatMap_cons, List.append_assoc] at h
    obtain ⟨first, more, rfl, hfirst, hmore⟩ := List.map_eq_append_iff.1 h
    obtain ⟨newline, rest, rfl, hnewline, hrest⟩ := List.map_eq_cons_iff.1 hmore
    have hfree := Token.not_isNewline_of_mem hfirst (hlines l List.mem_cons_self)
    have hend : newline.isNewline := Token.isNewline_of_lexeme hnewline
    rw [Line.ofTokens_append hfree hend, List.map_cons, hfirst,
      ih (fun k hk => hlines k (List.mem_cons_of_mem l hk)) hrest]

namespace Mos6502

/-- A statement that is the line of an instruction at an address, before anything is placed. -/
structure IsStatement (n : Node) (p : CodedInstruction × UInt64) : Prop where
  /-- It is the instruction, with its operand as it is shown at the address. -/
  written : p.1.Written p.2 n.element
  /-- It stands under no label. -/
  scope : n.scope = none
  /-- It has no address. -/
  address : n.address = none

/-- The lines of instructions are parsed to their statements. -/
theorem lines_parse {ps : List (CodedInstruction × UInt64)} {ls : List Line}
    (h : ls.map (fun l => l.tokens.map Token.lexeme) = ps.map fun p => p.1.statement p.2) (s : Parse)
    (hparent : s.parent = none) (herrors : s.errors = []) :
    ∃ ns, Parse.lines architecture s ls = { s with nodes := s.nodes ++ ns } ∧
      List.Forall₂ IsStatement ns ps := by
  induction ls generalizing s ps with
  | nil =>
    obtain rfl : ps = [] := by simpa using h.symm
    exact ⟨[], by simp [Parse.lines], .nil⟩
  | cons l ls ih =>
    obtain ⟨p, ps, rfl, hline, hrest⟩ := List.map_eq_cons_iff.1 h.symm
    obtain ⟨n, hn, hwritten, hscope, haddress⟩ := p.1.line_parse p.2 hline.symm s hparent
    obtain ⟨ns, hns, hforall⟩ := ih hrest.symm (s.add n) hparent herrors
    have hdone : s.isDone = false := by simp [Parse.isDone, herrors, Parse.errorLimit]
    refine ⟨n :: ns, ?_, .cons ⟨hwritten, hscope, haddress⟩ hforall⟩
    rw [Parse.lines, hdone, hn, if_neg (by decide), hns]
    simp [Parse.add]

end Mos6502

/-! ## Linking instructions without labels -/

theorem Parse.bundle_instructions {ns : List Node} (h : ∀ n ∈ ns, n.kind = .instruction) :
    Parse.bundle .text ns = (ns, [], []) := by
  induction ns with
  | nil => rfl
  | cons n ns ih =>
    have hn := h n List.mem_cons_self
    rw [Parse.bundle, ih fun k hk => h k (List.mem_cons_of_mem n hk)]
    split
    next next heq => simp [Node.kind, heq, Element.kind] at hn
    next => simp [hn, SectionKind.allows]

/-- Sections in which every node is kept as it is do not change. -/
theorem Section.rebuild_nodes_eq_self {σ : Type} {step : σ → Node → σ × Option Node} {ns : List Node}
    (h : ∀ n ∈ ns, ∀ s, step s n = (s, some n)) (s : σ) : Section.rebuild.nodes step s ns = (s, ns) := by
  induction ns with
  | nil => rfl
  | cons n ns ih =>
    rw [Section.rebuild.nodes, h n List.mem_cons_self]
    simp [ih fun k hk => h k (List.mem_cons_of_mem n hk)]

/-- A tree in which there is nothing to link keeps its nodes and diagnostics. -/
theorem Tree.link_of_settled {arch : Architecture} {t : Tree}
    (hdup : ∀ n ∈ t.nodes, ∀ s, Link.dropDuplicate s n = (s, some n))
    (hrefs : ∀ n ∈ t.nodes, ∀ s, Link.resolve arch s n = (s, some n)) :
    (t.link arch).nodes = t.nodes ∧ (t.link arch).diagnostics = t.diagnostics := by
  have hfirst : t.deduplicated = ({ labels := t.labels }, t.nodes) := Section.rebuild_nodes_eq_self hdup _
  have hsecond : t.resolved arch = ({ labels := t.labels }, t.nodes) := by
    rw [Tree.resolved, hfirst]
    exact Section.rebuild_nodes_eq_self hrefs _
  rw [Tree.nodes_link, Tree.diagnostics_link, hfirst, hsecond]
  exact ⟨rfl, by simp⟩

namespace Mos6502

theorem IsStatement.of_mem {ns : List Node} {ps : List (CodedInstruction × UInt64)}
    (h : List.Forall₂ IsStatement ns ps) {n : Node} (hn : n ∈ ns) : ∃ p, IsStatement n p := by
  induction h with
  | nil => cases hn
  | cons hhead _ ih =>
    rcases List.mem_cons.1 hn with rfl | hn
    · exact ⟨_, hhead⟩
    · exact ih hn

theorem IsStatement.kind {n : Node} {p : CodedInstruction × UInt64} (h : IsStatement n p) :
    n.kind = .instruction := by
  obtain ⟨tok, helement, -⟩ := h.written
  rw [Node.kind, helement]
  rfl

theorem IsStatement.dropDuplicate {n : Node} {p : CodedInstruction × UInt64} (h : IsStatement n p)
    (s : Link.Duplicates) : Link.dropDuplicate s n = (s, some n) := by
  obtain ⟨tok, helement, -⟩ := h.written
  obtain ⟨tokens, element, scope, address⟩ := n
  obtain rfl : scope = none := h.scope
  obtain rfl := helement
  rfl

/-- The operand of a shown instruction refers to no label. -/
theorem IsStatement.resolve {n : Node} {p : CodedInstruction × UInt64} (h : IsStatement n p)
    (s : Link.References) : Link.resolve architecture s n = (s, some n) := by
  obtain ⟨tok, helement, htok⟩ := h.written
  refine Link.resolve_of_constants architecture s (by simp [h.kind]) fun op hop => ?_
  rw [helement, Element.operands, Option.mem_toList] at hop
  obtain ⟨t, ht, rfl⟩ := Option.map_eq_some_iff.1 hop
  -- The only operand is a numeral, so that there is no word to look up.
  have hmem : t.lexeme ∈ tok.map Token.lexeme := Option.mem_map_of_mem _ ht
  rw [htok] at hmem
  obtain ⟨_, -, heq⟩ := Option.map_eq_some_iff.1 hmem
  rw [Operand.isWord, show t.kind = .hex from congrArg Lexeme.kind heq.symm]
  exact ⟨rfl, rfl⟩

/-- An assembler for the 6502 that starts at an address and lets branches wrap around. -/
def reassembler (files : Text → Option Tree) (origin : UInt64) : Assembler :=
  { arch := architecture, files, origin, wrapBranches := true }

/-- The tokens of a text that was written lexeme by lexeme pass through the preprocessor unchanged if no pass
acts on them and nothing is reduced. -/
theorem preprocessed_of_readsFrom {a : Assembler} (harch : a.arch = architecture) (name : Text)
    {ls : List Lexeme} (hreads : Scan.ReadsFrom dialect {} ls []) (hpassive : ∀ l ∈ ls, isPassive l)
    (hdefines : ∀ l ∈ ls, l.kind = .word → a.defines.lookup l.text = none)
    (hreduce : ∀ tokens : List Token, tokens.map Token.lexeme = ls →
      Token.reduce dialect tokens = tokens) :
    ∃ tokens : List Token, tokens.map Token.lexeme = ls ∧
      a.preprocessed name (ls.flatMap Lexeme.text) =
        { file := name, output := { tokens, events := [.finished name tokens.length 0 0] } } := by
  have hlexemes := Scan.lexeme_located name {} 0 ls
  have hsame := hreduce _ hlexemes
  refine ⟨Scan.located name {} 0 ls, hlexemes, ?_⟩
  have hdialect : a.arch.dialect = dialect := by rw [harch]; rfl
  have htokens : ∀ t ∈ Scan.located name {} 0 ls,
      Preprocess.Passive { dialect, files := a.files, defines := a.defines } t := by
    intro t ht
    have hmem : t.lexeme ∈ ls := hlexemes ▸ List.mem_map_of_mem ht
    exact passive_of_isPassive rfl (hpassive t.lexeme hmem) (hdefines t.lexeme hmem)
  simp only [Assembler.preprocessed, hdialect, Token.tokenize_of_readsFrom name hreads hsame,
    Preprocess.run_of_passive name htokens hsame]
  rfl

/-- Preprocessing leaves the lexemes of the source text as they are. -/
theorem preprocessed_source (files : Text → Option Tree) (origin : UInt64) (name : Text)
    (ps : List (CodedInstruction × UInt64)) :
    ∃ tokens : List Token, tokens.map Token.lexeme = sourceLexemes ps ∧
      (reassembler files origin).preprocessed name (Listing.source (ps.map fun p => p.1.row p.2)) =
        { file := name, output := { tokens, events := [.finished name tokens.length 0 0] } } := by
  have hinert : ∀ l ∈ sourceLexemes ps, (isPassive l ∧
      (l.kind = .word → l.text ∉ (["ORIGIN", "ADDRESS_WIDTH"] : List Text))) ∧
        Operator.ofText? l.text = none := by
    intro l hl
    have h := isInert_sourceLexemes ps l hl
    simp only [isInert, Bool.and_eq_true, Bool.or_eq_true, Bool.not_eq_true', bne_iff_ne,
      Option.isNone_iff_eq_none] at h
    refine ⟨⟨h.1.1, fun hword => ?_⟩, h.2⟩
    simpa [hword] using h.1.2
  rw [source_rows]
  refine preprocessed_of_readsFrom rfl name ((readsAll_sourceLexemes ps).readsFrom {})
    (fun l hl => (hinert l hl).1.1) (fun l hl hword => ?_)
    fun tokens htokens => Token.reduce_eq_self dialect fun t ht => ?_
  · -- Only the settings of the assembler are defined.
    rw [List.lookup_eq_none_iff]
    intro p hp
    rw [bne_iff_ne]
    rintro heq
    have hnames : (reassembler files origin).defines.map Prod.fst =
        (["ORIGIN", "ADDRESS_WIDTH"] : List Text) := rfl
    exact (hinert l hl).1.2 hword (hnames ▸ heq ▸ List.mem_map_of_mem hp)
  · exact (hinert t.lexeme (htokens ▸ List.mem_map_of_mem ht)).2

/-- Statements that text allows and in which there is nothing to link are the nodes of their tree. -/
theorem tree_of_settled {r : Preprocessed} (himports : r.output.imports = []) {s : Parse}
    (hlines : Parse.lines architecture {} (Line.ofTokens r.output.tokens) = s)
    (hbundle : Parse.bundle .text s.nodes = (s.nodes, [], []))
    (hdup : ∀ n ∈ s.nodes, ∀ d, Link.dropDuplicate d n = (d, some n))
    (hrefs : ∀ n ∈ s.nodes, ∀ d, Link.resolve architecture d n = (d, some n)) :
    ((Tree.ofPreprocessed architecture r).link architecture).diagnostics =
        r.output.diagnostics ++ s.errors ∧
      ((Tree.ofPreprocessed architecture r).link architecture).nodes = s.nodes := by
  have hown : Tree.ofPreprocessed architecture r = Tree.own architecture r := by
    rw [Tree.ofPreprocessed_eq, himports]
    rfl
  have hnodes : (Tree.own architecture r).nodes = s.nodes := by
    rw [Tree.nodes_own, hlines, hbundle]
    simp
  have hdiagnostics : (Tree.own architecture r).diagnostics = r.output.diagnostics ++ s.errors := by
    simp only [Tree.own, hlines, Parse.sections, hbundle]
    simp
  obtain ⟨hsame, hquiet⟩ := Tree.link_of_settled (t := Tree.own architecture r)
    (hnodes ▸ hdup) (hnodes ▸ hrefs)
  rw [hown, hsame, hquiet]
  exact ⟨hdiagnostics, hnodes⟩

/-- The tree of a preprocessed file with the lines of instructions. -/
theorem tree_of_lines {r : Preprocessed} (himports : r.output.imports = [])
    (hreported : r.output.diagnostics = []) {ps : List (CodedInstruction × UInt64)}
    (hlines : (Line.ofTokens r.output.tokens).map (fun l => l.tokens.map Token.lexeme) =
      ps.map fun p => p.1.statement p.2) :
    ((Tree.ofPreprocessed architecture r).link architecture).diagnostics = [] ∧
      List.Forall₂ IsStatement ((Tree.ofPreprocessed architecture r).link architecture).nodes ps := by
  -- Parsing, bundling and linking in turn keep the list of statements.
  obtain ⟨ns, hns, hforall⟩ := lines_parse hlines {} rfl rfl
  rw [List.nil_append] at hns
  have hstatement : ∀ n ∈ ns, ∃ p, IsStatement n p := fun n hn => IsStatement.of_mem hforall hn
  have hbundle : Parse.bundle .text ns = (ns, [], []) := Parse.bundle_instructions fun n hn =>
    (hstatement n hn).elim fun _ hp => hp.kind
  obtain ⟨hquiet, hnodes⟩ := tree_of_settled himports hns hbundle
    (fun n hn d => (hstatement n hn).elim fun _ hp => hp.dropDuplicate d)
    (fun n hn d => (hstatement n hn).elim fun _ hp => hp.resolve d)
  rw [hquiet, hnodes, hreported]
  exact ⟨rfl, hforall⟩

/-- The source text of instructions is parsed to their statements, and nothing is reported. -/
theorem parse_source (files : Text → Option Tree) (origin : UInt64) (name : Text)
    (ps : List (CodedInstruction × UInt64)) :
    ((reassembler files origin).parse name
        (Listing.source (ps.map fun p => p.1.row p.2))).tree.diagnostics = [] ∧
      List.Forall₂ IsStatement ((reassembler files origin).parse name
        (Listing.source (ps.map fun p => p.1.row p.2))).tree.nodes ps := by
  obtain ⟨tokens, hlexemes, hpre⟩ := preprocessed_source files origin name ps
  rw [Assembler.tree_parse, hpre]
  refine tree_of_lines rfl rfl (Line.ofTokens_lexemes (fun l hl x hx => ?_) ?_)
  · obtain ⟨p, -, rfl⟩ := List.mem_map.1 hl
    exact p.1.kind_statement p.2 x hx
  · rw [hlexemes, List.flatMap_map]
    rfl

/-! ## The layout of instructions -/

/-- A statement that is the line of an instruction at its own address. -/
structure IsPlaced (n : Node) (p : CodedInstruction × UInt64) : Prop where
  /-- It is the instruction, with its operand as it is shown at the address. -/
  written : p.1.Written p.2 n.element
  /-- It stands at the address. -/
  address : n.address = some p.2

/-- A statement of an instruction is placed at the next address. -/
theorem IsStatement.step {n : Node} {i : CodedInstruction} {addr : UInt64} (h : IsStatement n (i, addr))
    {s : Layout} (hnext : s.next = addr) (hpending : s.pending = []) :
    Layout.step architecture s n = { s with
      next := (addr + i.length.toUInt64) &&& architecture.addressMask
      placed := { n with address := some addr } :: s.placed } := by
  obtain ⟨tok, helement, -⟩ := h.written
  have hadvance : s.advance architecture n = s := by
    refine Layout.advance_of_alignment?_eq_none _ _ (by simp [h.kind]) ?_
    rw [helement]
    rfl
  have hlabel : n.declared? = none := by
    unfold Node.declared?
    rw [helement]
  have hsize : n.size = i.length := by
    rw [Node.size, helement]
    rfl
  rw [Layout.step_of_not_label _ _ h.address hlabel, hadvance, hsize, hnext, hpending]
  rfl

/-- Statements of instructions are placed one after the other. -/
theorem foldl_step {is : List CodedInstruction} {ns : List Node} {addr : UInt64}
    (h : List.Forall₂ IsStatement ns (placed addr is)) (hfit : addr.toNat + totalLength is ≤ 2 ^ 16)
    {s : Layout} (hnext : s.next = addr &&& architecture.addressMask) (hpending : s.pending = []) :
    ∃ ns', (ns.foldl (Layout.step architecture) s).nodes = s.nodes ++ ns' ∧
      (ns.foldl (Layout.step architecture) s).errors = s.errors ∧
      List.Forall₂ IsPlaced ns' (placed addr is) := by
  induction is generalizing ns addr s with
  | nil =>
    cases h
    exact ⟨[], by simp, rfl, .nil⟩
  | cons i is ih =>
    cases h with
    | @cons n _ ns _ hn hrest =>
      have hpos := i.length_pos
      rw [totalLength_cons] at hfit
      -- The next address may be cut to the bottom only behind the last instruction.
      have haddr : addr &&& architecture.addressMask = addr :=
        Word.and_mask_of_lt (n := 16) (by decide) (by omega)
      have hsum : (addr + i.length.toUInt64).toNat = addr.toNat + i.length :=
        toNat_add_length (by omega) (by omega)
      rw [haddr] at hnext
      rw [List.foldl_cons, hn.step hnext hpending]
      obtain ⟨ns', hnodes, herrors, hforall⟩ := ih hrest (by omega)
        (s := { s with
          next := (addr + i.length.toUInt64) &&& architecture.addressMask
          placed := { n with address := some addr } :: s.placed }) rfl hpending
      refine ⟨{ n with address := some addr } :: ns', ?_, herrors, .cons ⟨hn.written, rfl⟩ hforall⟩
      rw [hnodes]
      simp [Layout.nodes, hpending]

/-! ## The program of instructions -/

/-- The statements of instructions have the rows of the instructions. -/
theorem emissions_of_placed (enc : Encoding) (harch : enc.arch = architecture)
    (hwrap : enc.wrapBranches = true) {ns : List Node} {ps : List (CodedInstruction × UInt64)}
    (h : List.Forall₂ IsPlaced ns ps) :
    ∃ es : List Emission, ns.filterMap enc.emit? = es.map .ok ∧
      es.map (fun e => e.row.bare) = ps.map (fun p => p.1.row p.2) ∧ ∀ e ∈ es, e.mark = .program := by
  induction h with
  | nil => exact ⟨[], rfl, rfl, by simp⟩
  | @cons n p ns ps hn _ ih =>
    obtain ⟨es, hes, hrows, hmarks⟩ := ih
    have haddr : n.addr = p.2 := by rw [Node.addr, hn.address]; rfl
    have hemit := p.1.emit?_of_written (n := n) (haddr ▸ hn.written) harch hwrap
    refine ⟨⟨{ p.1.row n.addr with loc := n.loc, labels := enc.labels.namesAt n.addr }, .program⟩ :: es,
      ?_, ?_, ?_⟩
    · rw [List.filterMap_cons, hemit, hes]
      rfl
    · rw [List.map_cons, hrows, haddr]
      rfl
    · simpa using hmarks

/-- Rows of adjacent instructions load the bytes of all of them. -/
theorem foldl_load {is : List CodedInstruction} {es : List Emission} {addr : UInt64}
    (hrows : es.map (fun e => e.row.bare) = (placed addr is).map (fun p => p.1.row p.2))
    (hmarks : ∀ e ∈ es, e.mark = .program) (m : Memory) :
    es.foldl (fun m e => m.load e.row.address e.row.bytes e.mark) m =
      m.load addr (is.flatMap CodedInstruction.bytes) .program := by
  induction is generalizing es addr m with
  | nil =>
    obtain rfl : es = [] := by simpa [placed] using hrows
    rfl
  | cons i is ih =>
    obtain ⟨e, es, rfl, hrow, hrest⟩ := List.map_eq_cons_iff.1 hrows
    have haddress : e.row.address = addr := congrArg Row.address hrow
    have hbytes : e.row.bytes = i.bytes := congrArg Row.bytes hrow
    rw [List.foldl_cons, haddress, hbytes, hmarks e List.mem_cons_self,
      ih hrest fun k hk => hmarks k (List.mem_cons_of_mem e hk), List.flatMap_cons, Memory.load_append,
      i.length_bytes]

/-- Rows of adjacent instructions reach to where the last of them ends. -/
theorem foldl_bounds {is : List CodedInstruction} {rows : Listing} {addr stop lo : UInt64}
    (hrows : rows.map Row.bare = (placed addr is).map (fun p => p.1.row p.2))
    (hstop : addr.toNat + totalLength is = stop.toNat) (hfit : stop.toNat ≤ 2 ^ 16) (hlo : lo ≤ addr) :
    rows.foldl (fun (lo, hi) r => (min lo r.address, max hi r.stop)) (lo, addr) = (lo, stop) := by
  induction is generalizing rows addr with
  | nil =>
    obtain rfl : rows = [] := by simpa [placed] using hrows
    obtain rfl : addr = stop := UInt64.toNat_inj.1 (by simpa [totalLength] using hstop)
    rfl
  | cons i is ih =>
    obtain ⟨r, rows, rfl, hrow, hrest⟩ := List.map_eq_cons_iff.1 hrows
    have haddress : r.address = addr := congrArg Row.address hrow
    have hbytes : r.bytes = i.bytes := congrArg Row.bytes hrow
    have hnext : r.stop = addr + i.length.toUInt64 := by
      rw [Row.stop, haddress, hbytes, i.length_bytes]
    rw [totalLength_cons] at hstop
    have hsum : (addr + i.length.toUInt64).toNat = addr.toNat + i.length :=
      toNat_add_length (by omega) (by omega)
    have hle : addr ≤ addr + i.length.toUInt64 := by
      rw [UInt64.le_iff_toNat_le]
      omega
    have hmin : min lo addr = lo := if_pos hlo
    have hmax : max addr (addr + i.length.toUInt64) = addr + i.length.toUInt64 := if_pos hle
    simp only [List.foldl_cons, haddress, hnext, hmin, hmax]
    exact ih hrest (by omega) (UInt64.le_trans hlo hle)

/-- The bounds of the rows of adjacent instructions are those of the instructions. -/
theorem bounds_of_placed {i : CodedInstruction} {is : List CodedInstruction} {rows : Listing}
    {start stop : UInt64}
    (hrows : rows.map Row.bare = (placed start (i :: is)).map (fun p => p.1.row p.2))
    (hstop : start.toNat + totalLength (i :: is) = stop.toNat) (hfit : stop.toNat ≤ 2 ^ 16) :
    Program.bounds rows = (start, stop) := by
  obtain ⟨first, rest, rfl, hfirst, hrest⟩ := List.map_eq_cons_iff.1 hrows
  have haddress : first.address = start := congrArg Row.address hfirst
  have hbytes : first.bytes = i.bytes := congrArg Row.bytes hfirst
  rw [totalLength_cons] at hstop
  have hsum : (start + i.length.toUInt64).toNat = start.toNat + i.length :=
    toNat_add_length (by omega) (by omega)
  rw [Program.bounds, Row.stop, haddress, hbytes, i.length_bytes]
  refine foldl_bounds hrest (by omega) hfit ?_
  rw [UInt64.le_iff_toNat_le]
  omega

/-- The bytes of a program of adjacent instructions are the bytes of the instructions. -/
theorem binary_ofEmissions {is : List CodedInstruction} {es : List Emission} {start stop : UInt64}
    (hrows : es.map (fun e => e.row.bare) = (placed start is).map (fun p => p.1.row p.2))
    (hmarks : ∀ e ∈ es, e.mark = .program) (hstop : start.toNat + totalLength is = stop.toNat)
    (hfit : stop.toNat ≤ 2 ^ 16) {m : Memory} (hwidth : m.width = 16) :
    (Program.ofEmissions architecture m es).rows = es.map Emission.row ∧
      (Program.ofEmissions architecture m es).binary = is.flatMap CodedInstruction.bytes := by
  have hbare : (es.map Emission.row).map Row.bare = (placed start is).map fun p => p.1.row p.2 := by
    rw [List.map_map]
    exact hrows
  -- A row without bytes would be left out, but an instruction has its opcode.
  have hkept : (Program.ofEmissions architecture m es).rows = es.map Emission.row := by
    refine List.filter_eq_self.2 fun r hr => ?_
    have hmem : r.bare ∈ (placed start is).map fun p => p.1.row p.2 := hbare ▸ List.mem_map_of_mem hr
    obtain ⟨p, -, hp⟩ := List.mem_map.1 hmem
    have hbytes : r.bytes = p.1.bytes := (congrArg Row.bytes hp).symm
    rw [hbytes, CodedInstruction.bytes]
    rfl
  have hmemory : (Program.ofEmissions architecture m es).memory =
      m.load start (is.flatMap CodedInstruction.bytes) .program := foldl_load hrows hmarks m
  have hbounds : (Program.ofEmissions architecture m es).start =
        (Program.bounds (es.map Emission.row)).1 ∧
      (Program.ofEmissions architecture m es).stop = (Program.bounds (es.map Emission.row)).2 := by
    rw [← hkept]
    exact ⟨rfl, rfl⟩
  refine ⟨hkept, ?_⟩
  rw [Program.binary, hmemory, hbounds.1, hbounds.2]
  cases is with
  | nil =>
    obtain rfl : es = [] := by simpa [placed] using hrows
    rfl
  | cons i is =>
    -- All the bytes fit into the memory, so that none of them is loaded over another.
    rw [bounds_of_placed hbare hstop hfit, Memory.slice_eq_readBytes _ hstop, ← length_flatMap_bytes]
    refine m.readBytes_load (by omega) start _ .program ?_
    rw [length_flatMap_bytes, hwidth]
    omega

/-! ## Back to the same rows -/

/-- Statements of adjacent instructions are assembled without errors to the rows of the instructions. -/
theorem assemble_statements {t : Tree} {is : List CodedInstruction} {start stop : UInt64}
    (h : List.Forall₂ IsStatement t.nodes (placed start is))
    (hstop : start.toNat + totalLength is = stop.toNat) (hfit : stop.toNat ≤ 2 ^ 16) {m : Memory}
    (hwidth : m.width = 16) :
    (t.assemble architecture start true m).errors = [] ∧
      (t.assemble architecture start true m).program.rows.map Row.bare =
        (placed start is).map (fun p => p.1.row p.2) ∧
      (t.assemble architecture start true m).program.binary = is.flatMap CodedInstruction.bytes := by
  obtain ⟨ns, hnodes, herrors, hplaced⟩ := foldl_step h (by omega)
    (s := { next := start &&& architecture.addressMask, labels := t.labels }) rfl rfl
  have hlayout : (t.layout architecture start).1.nodes = ns := by
    rw [Tree.nodes_layout, Layout.run, hnodes]
    rfl
  have hmisplaced : (t.layout architecture start).2 = [] := herrors
  obtain ⟨es, hes, hrows, hmarks⟩ := emissions_of_placed
    { arch := architecture, wrapBranches := true, labels := (t.layout architecture start).1.labels }
    rfl rfl hplaced
  obtain ⟨hkept, hbinary⟩ := binary_ofEmissions hrows hmarks hstop hfit hwidth
  simp only [Tree.assemble, hlayout, hmisplaced, hes, Encoding.filterMap_toOption_ok]
  refine ⟨by simp, ?_, hbinary⟩
  rw [hkept, List.map_map]
  exact hrows

/-- Disassembling a range of memory and assembling the source text of its rows again yields the same rows and
the same bytes. -/
theorem disassemble_assemble (m : Memory) (labels : UInt64 → List Text) (start stop : UInt64)
    (hle : start ≤ stop) (hstop : stop ≤ 0x10000)
    (hreached : (Disassembly.run architecture m labels start stop).ending = .reached)
    (files : Text → Option Tree) (name : Text) (target : Memory) (hwidth : target.width = 16) :
    let rows := (Disassembly.run architecture m labels start stop).rows
    let tree := ((reassembler files start).parse name rows.source).tree
    tree.diagnostics = [] ∧
      ∃ out, (reassembler files start).assemble tree target = some out ∧ out.errors = [] ∧
        out.program.rows.map Row.bare = rows.map Row.bare ∧ out.program.binary = m.slice start stop := by
  intro rows tree
  have hfit : stop.toNat ≤ 2 ^ 16 := UInt64.le_iff_toNat_le.1 hstop
  -- Everything is said of the instructions that the walk lists.
  obtain ⟨is, hrows, htotal, hbytes⟩ := exists_of_walk m labels hfit le_rfl hle hreached
  have hsource : rows.source = Listing.source ((placed start is).map fun p => p.1.row p.2) := by
    rw [← hrows, Listing.source_map_bare]
    rfl
  obtain ⟨hquiet, hstatements⟩ := parse_source files start name (placed start is)
  rw [← hsource] at hquiet hstatements
  have hempty : tree.errors.isEmpty = true := by
    rw [Tree.errors, show tree.diagnostics = [] from hquiet]
    rfl
  obtain ⟨herrors, hsame, hbinary⟩ := assemble_statements hstatements htotal hfit hwidth
  have hslice : is.flatMap CodedInstruction.bytes = m.slice start stop :=
    hbytes.symm.trans (m.slice_eq_readBytes htotal).symm
  exact ⟨hquiet, _, if_pos hempty, herrors, hsame.trans hrows.symm, hbinary.trans hslice⟩

/-- Instructions in most addressing modes up to the top of the memory, the last of which is a branch to the
bottom. -/
def topOfMemory : Memory :=
  (Memory.empty 16 none).load 0xFFE6
    [0xEA, 0x0A, 0xA9, 0x10, 0xA5, 0x10, 0xAD, 0x10, 0x00, 0xA1, 0x20, 0xB1, 0x30, 0x6C, 0x34, 0x12, 0xB5,
      0x40, 0xBD, 0x00, 0x80, 0x10, 0x80, 0x00, 0xD0, 0x10] .program

theorem disassemble_assemble_topOfMemory :
    (Disassembly.run architecture topOfMemory (fun _ => []) 0xFFE6 0x10000).ending = .reached ∧
      (Disassembly.run architecture topOfMemory (fun _ => []) 0xFFE6 0x10000).rows.length = 13 ∧
      ∃ out, (reassembler (fun _ => none) 0xFFE6).assemble ((reassembler (fun _ => none) 0xFFE6).parse "top"
          (Disassembly.run architecture topOfMemory (fun _ => []) 0xFFE6 0x10000).rows.source).tree
          (.empty 16 none) = some out ∧
        out.program.binary = topOfMemory.slice 0xFFE6 0x10000 := by
  have hwalk : (Disassembly.run architecture topOfMemory (fun _ => []) 0xFFE6 0x10000).ending = .reached ∧
      (Disassembly.run architecture topOfMemory (fun _ => []) 0xFFE6 0x10000).rows.length = 13 := by
    decide +kernel
  obtain ⟨-, out, hout, -, -, hbinary⟩ := disassemble_assemble topOfMemory (fun _ => []) 0xFFE6 0x10000
    (by decide) (by decide) hwalk.1 (fun _ => none) "top" (.empty 16 none) rfl
  exact ⟨hwalk.1, hwalk.2, out, hout, hbinary⟩

end Mos6502

end EightBit
