import SwppCompiler.Interp.Structure

/-!
# The blocks that `parse` registers

`parse_bbname` (`interpreter/src/parser.cpp`, lines 173–181) cuts off the last character of the first
token, which is the colon only if no blank stands before it; and a block that begins with its terminator
(line 614) is dropped when its name is taken, where any other one is reported.

* `outline`: the headers of a text, each with the line after it, as a reader finds them.
* `Keeps`: what `parse` keeps of them; `keeps_read` is the step.
* `parse_faithful_iff`: the accepted texts whose blocks are registered as they are written.
-/

namespace SwppCompiler.Interp

open Lib Lib.Regex Lib.StateExcept

/-- The header of a block: the function, the line, and the first line after it. -/
structure Header where
  fname : Text
  instr : Text
  first : Option (ℕ × Text)
deriving DecidableEq

/-- What a reader knows of the lines so far: the function that was started last, and the headers. -/
structure Outline where
  fname : Text
  headers : List Header

/-- A reader reads a line. -/
def Outline.read (o : Outline) (line : ℕ × Text) : Outline :=
  let headers := o.headers.map fun h => { h with first := h.first.or (some line) }
  if rStartFunction.isMatch line.2 then ⟨functionName line.2, headers⟩
  else if rBBStart.isMatch line.2 then ⟨o.fname, headers ++ [⟨o.fname, line.2, none⟩]⟩
  else ⟨o.fname, headers⟩

/-- The headers of a text. -/
def outline (input : Text) : List Header :=
  ((significant input).foldl Outline.read ⟨[], []⟩).headers

/-- The name of the block, as it is written. -/
def Header.name (h : Header) : Text := writtenName h.instr

/-- The name of the block for `parse`. -/
def Header.bbname (h : Header) : Text := parseBBName h.instr

/-- The block begins with a terminator. -/
def Header.lone (h : Header) : Bool :=
  match h.first with
  | some (_, instr) => !normalForms.any fun form => form.1.isMatch instr
  | none => false

/-- The statement that a line is. -/
def parseStmt (instr : Text) : Option Stmt :=
  match parseNormalStmt instr with
  | .ok (some stmt) => some stmt
  | .ok none =>
    match parseTerminator instr with
    | .ok o => o
    | .error _ => none
  | .error _ => none

/-- The statement at `p` is the first line after the header. -/
def Header.At (h : Header) (nodes : List Node) (p : ℕ) : Prop :=
  ∃ node line instr, nodes[p]? = some node ∧ h.first = some (line, instr) ∧ node.line = line ∧
    parseStmt instr = some node.stmt

/-- The block is registered under its name, and bound to its first statement. -/
def Header.Registered (h : Header) (P : Program) : Prop :=
  ∃ f p, P.getFunction h.fname = some f ∧ f.getBB h.name = some p ∧ h.At P.nodes p

/-- The program has the blocks of the text. -/
structure Faithful (input : Text) (P : Program) : Prop where
  distinct : (outline input).Pairwise fun h h' => h.fname = h'.fname → h.name ≠ h'.name
  registered : ∀ h ∈ outline input, h.Registered P

/-- In no header a blank stands between the name and the colon, and no block of a terminator only has
    the name of an earlier block of its function. -/
structure WellWritten (input : Text) : Prop where
  plain : ∀ h ∈ outline input, plainHeader h.instr = true
  lone : (outline input).Pairwise fun h h' => h.fname = h'.fname → h.name = h'.name → h'.lone = false

/-! ## The reader -/

section

variable {o : Outline} {line : ℕ × Text} {hs : List Header}

/-- The line after the last header. -/
theorem map_first_closed (hclosed : ∀ h ∈ hs, h.first.isSome = true) :
    (hs.map fun h => { h with first := h.first.or (some line) }) = hs := by
  refine (List.map_congr_left fun h hh => ?_).trans (List.map_id hs)
  obtain ⟨x, hx⟩ := Option.isSome_iff_exists.mp (hclosed h hh)
  obtain ⟨fname, instr, first⟩ := h
  cases hx
  rfl

theorem read_start (h : line.2 ∈ rStartFunction.lang) (hclosed : ∀ h ∈ o.headers, h.first.isSome = true) :
    o.read line = ⟨functionName line.2, o.headers⟩ := by
  rw [Outline.read, map_first_closed hclosed, if_pos ((isMatch_iff _ _).mpr h)]

theorem read_header (h : line.2 ∈ rBBStart.lang) (hclosed : ∀ h ∈ o.headers, h.first.isSome = true) :
    o.read line = ⟨o.fname, o.headers ++ [⟨o.fname, line.2, none⟩]⟩ := by
  rw [Outline.read, map_first_closed hclosed,
    if_neg fun h' => not_start_of_header h ((isMatch_iff _ _).mp h'), if_pos ((isMatch_iff _ _).mpr h)]

theorem read_other (hstart : line.2 ∉ rStartFunction.lang) (hheader : line.2 ∉ rBBStart.lang) :
    o.read line =
      ⟨o.fname, o.headers.map fun h => { h with first := h.first.or (some line) }⟩ := by
  rw [Outline.read, if_neg fun h' => hstart ((isMatch_iff _ _).mp h'),
    if_neg fun h' => hheader ((isMatch_iff _ _).mp h')]

end

theorem hasForm_iff_any {forms : List (Regex Char × (Text → Except ParseError Stmt))} {instr : Text} :
    (forms.any fun form => form.1.isMatch instr) = true ↔ HasForm forms instr := by
  rw [List.any_eq_true]
  exact exists_congr fun form => and_congr_right fun _ => isMatch_iff _ _

/-- What a line that is a statement is for the reader. -/
theorem of_parseNormalStmt {instr : Text} {stmt : Stmt} (h : parseNormalStmt instr = .ok (some stmt)) :
    IsStmtLine instr ∧ parseStmt instr = some stmt := by
  have hpost := (parseNormalStmt_post instr).of_ok h
  refine ⟨Or.inl ?_, by rw [parseStmt, h]⟩
  rcases hpost with ⟨h', -⟩ | ⟨stmt', -, -, hform⟩
  · cases h'
  · exact hform

theorem of_parseTerminator {instr : Text} {stmt : Stmt} (hnot : parseNormalStmt instr = .ok none)
    (h : parseTerminator instr = .ok (some stmt)) :
    IsStmtLine instr ∧ parseStmt instr = some stmt ∧ ¬HasForm normalForms instr := by
  have hpost := (parseTerminator_post instr).of_ok h
  have hpost' := (parseNormalStmt_post instr).of_ok hnot
  refine ⟨Or.inr ?_, by rw [parseStmt, hnot, h], ?_⟩
  · rcases hpost with ⟨h', -⟩ | ⟨stmt', -, -, hform⟩
    · cases h'
    · exact hform
  · rcases hpost' with ⟨-, hform⟩ | ⟨stmt', h', -⟩
    · exact hform
    · cases h'

/-! ## What is kept of the headers -/

/-- What `parse` keeps of the headers `hs`, all of which have a line after them. -/
structure Keeps (hs : List Header) (nodes : List Node) (functions : List Function) : Prop where
  closed : ∀ h ∈ hs, h.instr ∈ rBBStart.lang ∧ h.first.isSome = true
  entries : ∀ f ∈ functions, ∀ e ∈ f.bbMap, ∃ h ∈ hs, h.fname = f.fname ∧ h.bbname = e.1 ∧
    h.At nodes e.2
  known : ∀ h ∈ hs, ∃ f ∈ functions, f.fname = h.fname ∧ (f.getBB h.bbname).isSome = true
  complete : ∀ h ∈ hs,
    (∃ f ∈ functions, f.fname = h.fname ∧ ∃ p, f.getBB h.bbname = some p ∧ h.At nodes p) ∨
      (h.lone = true ∧ ∃ h', [h', h].Sublist hs ∧ h'.fname = h.fname ∧ h'.bbname = h.bbname)
  repeats : hs.Pairwise fun h h' => h.fname = h'.fname → h.bbname = h'.bbname → h'.lone = true

section

variable {hs : List Header} {nodes nodes' : List Node} {functions : List Function}

/-- The statements stay where they are. -/
def Extends (nodes nodes' : List Node) : Prop := ∀ (p : ℕ) (node : Node), nodes[p]? = some node →
  ∃ node' : Node, nodes'[p]? = some node' ∧ node'.line = node.line ∧ node'.stmt = node.stmt

theorem Extends.append (node : Node) : Extends nodes (nodes ++ [node]) := fun _ node' h =>
  ⟨node', by rw [List.getElem?_append_left (List.getElem?_eq_some_iff.mp h).1, h], rfl, rfl⟩

theorem Extends.trans {nodes'' : List Node} (h : Extends nodes nodes') (h' : Extends nodes' nodes'') :
    Extends nodes nodes'' := by
  intro p node hp
  obtain ⟨node', hp', hline, hstmt⟩ := h p node hp
  obtain ⟨node'', hp'', hline', hstmt'⟩ := h' p node' hp'
  exact ⟨node'', hp'', hline'.trans hline, hstmt'.trans hstmt⟩

theorem Extends.modify (q next : ℕ) :
    Extends nodes (nodes.modify q fun n => { n with next := some next }) := by
  intro p node hp
  rw [List.getElem?_modify, hp]
  refine ⟨_, rfl, ?_⟩
  dsimp only
  split_ifs <;> exact ⟨rfl, rfl⟩

theorem Header.At.extends {h : Header} {p : ℕ} (hat : h.At nodes p) (hext : Extends nodes nodes') :
    h.At nodes' p := by
  obtain ⟨node, line, instr, hp, hfirst, hline, hstmt⟩ := hat
  obtain ⟨node', hp', hline', hstmt'⟩ := hext p node hp
  exact ⟨node', line, instr, hp', hfirst, hline'.trans hline, hstmt.trans (congrArg _ hstmt'.symm)⟩

theorem Keeps.extends (h : Keeps hs nodes functions) (hext : Extends nodes nodes') :
    Keeps hs nodes' functions where
  closed := h.closed
  entries f hf e he := by
    obtain ⟨h', hh', hname, hbb, hat⟩ := h.entries f hf e he
    exact ⟨h', hh', hname, hbb, hat.extends hext⟩
  known := h.known
  complete h' hh' := (h.complete h' hh').imp_left fun ⟨f, hf, hname, p, hp, hat⟩ =>
    ⟨f, hf, hname, p, hp, hat.extends hext⟩
  repeats := h.repeats

/-- A function without blocks. -/
theorem Keeps.start (h : Keeps hs nodes functions) (fname : Text) (nargs : ℕ) :
    Keeps hs nodes (⟨fname, nargs, [], []⟩ :: functions) where
  closed := h.closed
  entries := List.forall_mem_cons.mpr ⟨fun _ he => absurd he List.not_mem_nil, h.entries⟩
  known h' hh' := by
    obtain ⟨f, hf, hknown⟩ := h.known h' hh'
    exact ⟨f, List.mem_cons_of_mem _ hf, hknown⟩
  complete h' hh' := (h.complete h' hh').imp_left fun ⟨f, hf, hcomplete⟩ =>
    ⟨f, List.mem_cons_of_mem _ hf, hcomplete⟩
  repeats := h.repeats

/-- The function that is read may change where its blocks stay findable. -/
theorem Keeps.head {f f' : Function} {fs : List Function} (h : Keeps hs nodes (f :: fs))
    (hname : f'.fname = f.fname) (hmap : f'.bbMap = f.bbMap) : Keeps hs nodes (f' :: fs) where
  closed := h.closed
  entries := by
    obtain ⟨hf, hfs⟩ := List.forall_mem_cons.mp h.entries
    refine List.forall_mem_cons.mpr ⟨?_, hfs⟩
    rw [hname, hmap]
    exact hf
  known h' hh' := by
    obtain ⟨g, hg, hgname, hknown⟩ := h.known h' hh'
    rcases List.mem_cons.mp hg with rfl | hg
    · exact ⟨f', List.mem_cons_self, hname.trans hgname, by rwa [Function.getBB, hmap]⟩
    · exact ⟨g, List.mem_cons_of_mem _ hg, hgname, hknown⟩
  complete h' hh' := by
    refine (h.complete h' hh').imp_left ?_
    rintro ⟨g, hg, hgname, p, hp, hat⟩
    rcases List.mem_cons.mp hg with rfl | hg
    · exact ⟨f', List.mem_cons_self, hname.trans hgname, p, by rwa [Function.getBB, hmap], hat⟩
    · exact ⟨g, List.mem_cons_of_mem _ hg, hgname, p, hp, hat⟩
  repeats := h.repeats

end

/-! ### A block is registered -/

theorem Function.setBB_eq_some {f f' : Function} {bb : Text} {p : ℕ} (h : f.setBB bb p = some f') :
    f.getBB bb = none ∧ f' = { f with bbMap := f.bbMap ++ [(bb, p)] } := by
  unfold Function.setBB at h
  split at h
  · cases h
  · exact ⟨‹_›, (Option.some.inj h).symm⟩

theorem Function.setBB_eq_none {f : Function} {bb : Text} {p : ℕ} (h : f.setBB bb p = none) :
    (f.getBB bb).isSome = true := by
  unfold Function.setBB at h
  split at h
  · rename_i q hq
    rw [hq]
    rfl
  · cases h

/-- What a function finds it still finds when a block is added. -/
theorem getBB_append {f : Function} {bb bb' : Text} {p q : ℕ} (h : f.getBB bb = some p) :
    ({ f with bbMap := f.bbMap ++ [(bb', q)] } : Function).getBB bb = some p := by
  rw [Function.getBB] at h ⊢
  rw [List.lookup_append, h]
  rfl

theorem getBB_append_self {f : Function} {bb : Text} {p : ℕ} (h : f.getBB bb = none) :
    ({ f with bbMap := f.bbMap ++ [(bb, p)] } : Function).getBB bb = some p := by
  rw [Function.getBB] at h ⊢
  rw [List.lookup_append, h]
  simp

section

variable {hs : List Header} {nodes : List Node} {f : Function} {fs : List Function} {h : Header}
  {p : ℕ}

/-- A block whose name is new. -/
theorem Keeps.add (hk : Keeps hs nodes (f :: fs)) (hname : h.fname = f.fname)
    (hmem : h.instr ∈ rBBStart.lang) (hat : h.At nodes p) (hnew : f.getBB h.bbname = none)
    (hnames : ∀ g ∈ fs, g.fname ≠ f.fname) :
    Keeps (hs ++ [h]) nodes ({ f with bbMap := f.bbMap ++ [(h.bbname, p)] } :: fs) := by
  have hfresh : ∀ h' ∈ hs, h'.fname = h.fname → h'.bbname ≠ h.bbname := by
    intro h' hh' hfn hbb
    obtain ⟨g, hg, hgname, hknown⟩ := hk.known h' hh'
    rcases List.mem_cons.mp hg with rfl | hg
    · rw [hbb, hnew] at hknown
      cases hknown
    · exact hnames g hg (hgname.trans (hfn.trans hname))
  refine ⟨?_, ?_, ?_, ?_, ?_⟩
  · refine List.forall_mem_append.mpr ⟨hk.closed, List.forall_mem_singleton.mpr ⟨hmem, ?_⟩⟩
    obtain ⟨-, line, instr, -, hfirst, -⟩ := hat
    rw [hfirst]
    rfl
  · obtain ⟨hf, hfs⟩ := List.forall_mem_cons.mp hk.entries
    refine List.forall_mem_cons.mpr ⟨fun e he => ?_, fun g hg e he => ?_⟩
    · rcases List.mem_append.mp he with he | he
      · obtain ⟨h', hh', hrest⟩ := hf e he
        exact ⟨h', List.mem_append_left _ hh', hrest⟩
      · rw [List.mem_singleton.mp he]
        exact ⟨h, List.mem_append_right _ (List.mem_singleton_self h), hname, rfl, hat⟩
    · obtain ⟨h', hh', hrest⟩ := hfs g hg e he
      exact ⟨h', List.mem_append_left _ hh', hrest⟩
  · refine List.forall_mem_append.mpr ⟨fun h' hh' => ?_, List.forall_mem_singleton.mpr ?_⟩
    · obtain ⟨g, hg, hgname, hknown⟩ := hk.known h' hh'
      rcases List.mem_cons.mp hg with rfl | hg
      · obtain ⟨q, hq⟩ := Option.isSome_iff_exists.mp hknown
        exact ⟨_, List.mem_cons_self, hgname, by rw [getBB_append hq]; rfl⟩
      · exact ⟨g, List.mem_cons_of_mem _ hg, hgname, hknown⟩
    · exact ⟨_, List.mem_cons_self, hname.symm, by rw [getBB_append_self hnew]; rfl⟩
  · refine List.forall_mem_append.mpr ⟨fun h' hh' => ?_, List.forall_mem_singleton.mpr (Or.inl ?_)⟩
    · rcases hk.complete h' hh' with ⟨g, hg, hgname, q, hq, hat'⟩ | ⟨hlone, h'', hsub, hrest⟩
      · rcases List.mem_cons.mp hg with rfl | hg
        · exact Or.inl ⟨_, List.mem_cons_self, hgname, q, getBB_append hq, hat'⟩
        · exact Or.inl ⟨g, List.mem_cons_of_mem _ hg, hgname, q, hq, hat'⟩
      · exact Or.inr ⟨hlone, h'', hsub.trans (List.sublist_append_left _ _), hrest⟩
    · exact ⟨_, List.mem_cons_self, hname.symm, p, getBB_append_self hnew, hat⟩
  · refine List.pairwise_append.mpr ⟨hk.repeats, List.pairwise_singleton _ _, fun h' hh' h'' hh'' => ?_⟩
    rw [List.mem_singleton.mp hh'']
    exact fun hfn hbb => absurd hbb (hfresh h' hh' hfn)

/-- A block of a terminator only, whose name is not new, is left out. -/
theorem Keeps.skip (hk : Keeps hs nodes (f :: fs)) (hname : h.fname = f.fname)
    (hmem : h.instr ∈ rBBStart.lang) (hfirst : h.first.isSome = true) (hlone : h.lone = true)
    (hknown : (f.getBB h.bbname).isSome = true) : Keeps (hs ++ [h]) nodes (f :: fs) where
  closed := List.forall_mem_append.mpr ⟨hk.closed, List.forall_mem_singleton.mpr ⟨hmem, hfirst⟩⟩
  entries g hg e he := by
    obtain ⟨h', hh', hrest⟩ := hk.entries g hg e he
    exact ⟨h', List.mem_append_left _ hh', hrest⟩
  known := List.forall_mem_append.mpr ⟨hk.known,
    List.forall_mem_singleton.mpr ⟨f, List.mem_cons_self, hname.symm, hknown⟩⟩
  complete := by
    refine List.forall_mem_append.mpr ⟨fun h' hh' => ?_, List.forall_mem_singleton.mpr (Or.inr ?_)⟩
    · refine (hk.complete h' hh').imp_right ?_
      rintro ⟨hlone', h'', hsub, hrest⟩
      exact ⟨hlone', h'', hsub.trans (List.sublist_append_left _ _), hrest⟩
    · obtain ⟨p, hp⟩ := Option.isSome_iff_exists.mp hknown
      obtain ⟨h', hh', hfn, hbb, -⟩ :=
        hk.entries f List.mem_cons_self (h.bbname, p) (mem_of_getBB hp)
      refine ⟨hlone, h', ?_, hfn.trans hname.symm, hbb⟩
      exact (List.singleton_sublist.mpr hh').append (List.Sublist.refl [h])
  repeats := by
    refine List.pairwise_append.mpr ⟨hk.repeats, List.pairwise_singleton _ _, fun h' _ h'' hh'' => ?_⟩
    rw [List.mem_singleton.mp hh'']
    exact fun _ _ => hlone

end

/-! ## The lines after the headers -/

/-- Two headers do not have the same line after them. -/
def Header.Apart (h h' : Header) : Prop := ∀ l ∈ h.first, ∀ l' ∈ h'.first, l.1 ≠ l'.1

instance : Std.Symm Header.Apart := ⟨fun _ _ hab l hl l' hl' => (hab l' hl' l hl).symm⟩

/-- No two headers have the same line after them, and all these lines come before the rest. -/
structure Apart (rest : List (ℕ × Text)) (headers : List Header) : Prop where
  ordered : rest.Pairwise fun x y => x.1 < y.1
  earlier : ∀ h ∈ headers, ∀ l ∈ h.first, ∀ x ∈ rest, l.1 < x.1
  apart : headers.Pairwise Header.Apart

section

variable {x : ℕ × Text} {rest : List (ℕ × Text)} {hs : List Header} {fname instr : Text}

theorem Apart.skip (h : Apart (x :: rest) hs) : Apart rest hs where
  ordered := (List.pairwise_cons.mp h.ordered).2
  earlier h' hh' l hl y hy := h.earlier h' hh' l hl y (List.mem_cons_of_mem _ hy)
  apart := h.apart

/-- A new header. -/
theorem Apart.open (h : Apart (x :: rest) hs) :
    Apart rest (hs ++ [⟨fname, instr, none⟩]) where
  ordered := h.skip.ordered
  earlier := List.forall_mem_append.mpr ⟨h.skip.earlier,
    List.forall_mem_singleton.mpr fun l hl => by cases hl⟩
  apart := by
    refine List.pairwise_append.mpr ⟨h.apart, List.pairwise_singleton _ _, fun h' hh' h'' hh'' => ?_⟩
    rw [List.mem_singleton.mp hh'']
    intro l _ l' hl'
    cases hl'

/-- The line after the last header. -/
theorem Apart.close (h : Apart (x :: rest) (hs ++ [⟨fname, instr, none⟩])) :
    Apart rest (hs ++ [⟨fname, instr, some x⟩]) where
  ordered := h.skip.ordered
  earlier := by
    refine List.forall_mem_append.mpr ⟨fun h' hh' => ?_, List.forall_mem_singleton.mpr ?_⟩
    · exact h.skip.earlier h' (List.mem_append_left _ hh')
    · intro l hl y hy
      cases hl
      exact (List.pairwise_cons.mp h.ordered).1 y hy
  apart := by
    refine List.pairwise_append.mpr ⟨(List.pairwise_append.mp h.apart).1, List.pairwise_singleton _ _,
      fun h' hh' h'' hh'' => ?_⟩
    rw [List.mem_singleton.mp hh'']
    intro l hl l' hl'
    cases hl'
    exact (h.earlier h' (List.mem_append_left _ hh') l hl x List.mem_cons_self).ne

end

/-! ## The step -/

/-- `parse` and the reader are at the same line. -/
structure Keeping (rest : List (ℕ × Text)) (c : Parsing) (o : Outline) : Prop where
  begun : c.state = .psBegin ∨ c.functions ≠ []
  current : ∀ f ∈ c.functions.head?, f.fname = o.fname
  names : (c.functions.map Function.fname).Nodup
  lines : Apart rest o.headers
  shape : (c.state ≠ .psStartBB ∧ Keeps o.headers c.nodes c.functions) ∨
    (c.state = .psStartBB ∧ ∃ hs, Keeps hs c.nodes c.functions ∧ ∃ instr ∈ rBBStart.lang,
      o.headers = hs ++ [⟨o.fname, instr, none⟩] ∧ c.currBB = parseBBName instr)

section

variable {rest : List (ℕ × Text)} {c c' : Parsing} {o : Outline} {line : ℕ} {instr : Text}

theorem Keeping.keeps (h : Keeping rest c o) (hs : c.state ≠ .psStartBB) :
    Keeps o.headers c.nodes c.functions := by
  rcases h.shape with ⟨-, hk⟩ | ⟨hs', -⟩
  · exact hk
  · exact absurd hs' hs

theorem Keeps.isSome {hs : List Header} {nodes : List Node} {functions : List Function}
    (h : Keeps hs nodes functions) : ∀ h ∈ hs, h.first.isSome = true := fun h' hh' =>
  (h.closed h' hh').2

theorem stmt_at (nodes : List Node) {fname hinstr : Text} {stmt : Stmt}
    (h : parseStmt instr = some stmt) :
    (⟨fname, hinstr, some (line, instr)⟩ : Header).At (nodes ++ [⟨line, stmt, none⟩]) nodes.length :=
  ⟨⟨line, stmt, none⟩, line, instr, List.getElem?_concat_length .., rfl, rfl, h⟩

/-- The reader at the first statement of a block. -/
theorem Keeping.read_first (h : Keeping ((line, instr) :: rest) c o) (hs : c.state = .psStartBB)
    (hstmt : IsStmtLine instr) : ∃ hs hinstr, Keeps hs c.nodes c.functions ∧
      hinstr ∈ rBBStart.lang ∧ c.currBB = parseBBName hinstr ∧
      o.read (line, instr) = ⟨o.fname, hs ++ [⟨o.fname, hinstr, some (line, instr)⟩]⟩ ∧
      Apart rest (hs ++ [⟨o.fname, hinstr, some (line, instr)⟩]) := by
  rcases h.shape with ⟨hs', -⟩ | ⟨-, hs, hk, hinstr, hmem, hheaders, hbb⟩
  · exact absurd hs hs'
  · have hlines := h.lines
    rw [hheaders] at hlines
    refine ⟨hs, hinstr, hk, hmem, hbb, ?_, hlines.close⟩
    rw [read_other (not_start_of_stmt hstmt) (not_header_of_stmt hstmt), hheaders, List.map_append,
      map_first_closed hk.isSome]
    rfl

/-- The reader at a later statement. -/
theorem Keeping.read_stmt (h : Keeping ((line, instr) :: rest) c o) (hs : c.state ≠ .psStartBB)
    (hstart : instr ∉ rStartFunction.lang) (hheader : instr ∉ rBBStart.lang) :
    o.read (line, instr) = o := by
  rw [read_other hstart hheader, map_first_closed (h.keeps hs).isSome]

theorem lone_of_not_hasForm {fname hinstr : Text} (h : ¬HasForm normalForms instr) :
    (⟨fname, hinstr, some (line, instr)⟩ : Header).lone = true := by
  show (!normalForms.any fun form => form.1.isMatch instr) = true
  rw [Bool.eq_false_iff.mpr fun h' => h (hasForm_iff_any.mp h')]
  rfl

/-- The first statement of a block is registered. -/
theorem Keeping.registered {f f' : Function} {fs : List Function} {stmt : Stmt}
    (h : Keeping ((line, instr) :: rest) c o) (hs : c.state = .psStartBB) (hf : c.functions = f :: fs)
    (hline : IsStmtLine instr) (hparse : parseStmt instr = some stmt)
    (hset : f.setBB c.currBB c.nodes.length = some f')
    (hnodes : c'.nodes = c.nodes ++ [⟨line, stmt, none⟩]) (hfunctions : c'.functions = f' :: fs)
    (hstate : c'.state ≠ .psStartBB) : Keeping rest c' (o.read (line, instr)) := by
  obtain ⟨hs', hinstr, hk, hmem, hbb, hread, hlines⟩ := h.read_first hs hline
  obtain ⟨hnew, rfl⟩ := Function.setBB_eq_some hset
  have hcurrent := h.current
  have hnames := h.names
  rw [hf] at hcurrent hnames hk
  rw [hread]
  refine ⟨Or.inr ?_, ?_, ?_, hlines, Or.inl ⟨hstate, ?_⟩⟩
  · rw [hfunctions]
    exact List.cons_ne_nil _ _
  · rw [hfunctions]
    intro g hg
    cases hg
    exact hcurrent f rfl
  · rw [hfunctions]
    exact hnames
  · rw [List.map_cons, List.nodup_cons] at hnames
    rw [hnodes, hfunctions]
    rw [hbb] at hnew ⊢
    exact (hk.extends (Extends.append _)).add (hcurrent f rfl).symm hmem (stmt_at c.nodes hparse) hnew
      fun g hg heq => hnames.1 (heq ▸ List.mem_map_of_mem hg)

theorem keeping_read (h : Keeping ((line, instr) :: rest) c o) (hread : Reads line instr c c') :
    Keeping rest c' (o.read (line, instr)) := by
  cases hread with
  | @start n hs hmem hn hnew =>
    have hne : c.state ≠ .psStartBB := by
      rintro heq
      rw [heq] at hs
      exact hs.elim ParserState.noConfusion ParserState.noConfusion
    have hk := h.keeps hne
    rw [read_start hmem hk.isSome]
    refine ⟨Or.inr (List.cons_ne_nil _ _), ?_, ?_, h.lines.skip, Or.inl ⟨ParserState.noConfusion, ?_⟩⟩
    · intro f hf
      cases hf
      rfl
    · rw [List.map_cons, List.nodup_cons]
      refine ⟨fun hmem => ?_, h.names⟩
      obtain ⟨g, hg, hname⟩ := List.mem_map.mp hmem
      exact hnew g hg hname
    · exact hk.start (functionName instr) n
  | @header f fs hs hmem hf =>
    have hk := h.keeps (hs.trans_ne nofun)
    have hcurrent := h.current
    have hnames := h.names
    rw [hf] at hcurrent hnames
    rw [read_header hmem hk.isSome]
    refine ⟨Or.inr (List.cons_ne_nil _ _), ?_, hnames, h.lines.open, Or.inr ⟨rfl, ?_⟩⟩
    · intro g hg
      cases hg
      exact hcurrent f rfl
    · rw [hf] at hk
      exact ⟨_, hk.head rfl rfl, instr, hmem, rfl, rfl⟩
  | @first f f' fs stmt hs hf hstmt hset =>
    obtain ⟨hline, hparse⟩ := of_parseNormalStmt hstmt
    exact h.registered hs hf hline hparse hset rfl rfl ParserState.noConfusion
  | @only f fs stmt hs hf hnot hstmt =>
    obtain ⟨hline, hparse, hform⟩ := of_parseTerminator hnot hstmt
    cases hset : f.setBB c.currBB c.nodes.length with
    | some f' => exact h.registered hs hf hline hparse hset rfl rfl ParserState.noConfusion
    | none =>
      have hknown := Function.setBB_eq_none hset
      obtain ⟨hs', hinstr, hk, hmem, hbb, hread, hlines⟩ := h.read_first hs hline
      have hcurrent := h.current
      have hnames := h.names
      rw [hf] at hcurrent hnames hk
      rw [hread]
      refine ⟨Or.inr (List.cons_ne_nil _ _), ?_, hnames, hlines, Or.inl ⟨ParserState.noConfusion, ?_⟩⟩
      · intro g hg
        cases hg
        exact hcurrent f rfl
      · rw [hbb] at hknown
        exact (hk.extends (Extends.append _)).skip (hcurrent f rfl).symm hmem rfl
          (lone_of_not_hasForm hform) hknown
  | @next stmt hs hstmt =>
    have hne : c.state ≠ .psStartBB := hs.trans_ne nofun
    obtain ⟨hline, -⟩ := of_parseNormalStmt hstmt
    rw [h.read_stmt hne (not_start_of_stmt hline) (not_header_of_stmt hline)]
    have hbegun : c.functions ≠ [] := h.begun.resolve_left (hs.trans_ne nofun)
    refine ⟨Or.inr hbegun, h.current, h.names, h.lines.skip, Or.inl ⟨ParserState.noConfusion, ?_⟩⟩
    exact (h.keeps hne).extends ((Extends.append _).trans (Extends.modify _ _))
  | @last stmt hs hnot hstmt =>
    have hne : c.state ≠ .psStartBB := hs.trans_ne nofun
    obtain ⟨hline, -, -⟩ := of_parseTerminator hnot hstmt
    rw [h.read_stmt hne (not_start_of_stmt hline) (not_header_of_stmt hline)]
    have hbegun : c.functions ≠ [] := h.begun.resolve_left (hs.trans_ne nofun)
    refine ⟨Or.inr hbegun, h.current, h.names, h.lines.skip, Or.inl ⟨ParserState.noConfusion, ?_⟩⟩
    exact (h.keeps hne).extends ((Extends.append _).trans (Extends.modify _ _))
  | block hs hmem =>
    have hk := h.keeps (hs.trans_ne nofun)
    have hbegun : c.functions ≠ [] := h.begun.resolve_left (hs.trans_ne nofun)
    rw [read_header hmem hk.isSome]
    exact ⟨Or.inr hbegun, h.current, h.names, h.lines.open,
      Or.inr ⟨rfl, _, hk, instr, hmem, rfl, rfl⟩⟩
  | ending hs hmem =>
    have hne : c.state ≠ .psStartBB := hs.trans_ne nofun
    have hbegun : c.functions ≠ [] := h.begun.resolve_left (hs.trans_ne nofun)
    rw [h.read_stmt hne (not_start_of_end hmem) (not_header_of_end hmem)]
    exact ⟨Or.inr hbegun, h.current, h.names, h.lines.skip,
      Or.inl ⟨ParserState.noConfusion, h.keeps hne⟩⟩

end

/-! ## Accepted texts -/

theorem zipIdx_ordered (l : List Text) (k : ℕ) : (l.zipIdx k).Pairwise fun x y => x.2 < y.2 := by
  induction l generalizing k with
  | nil => exact .nil
  | cons a l ih =>
    rw [List.zipIdx_cons]
    exact List.pairwise_cons.mpr
      ⟨fun y hy => Nat.lt_of_succ_le (List.le_snd_of_mem_zipIdx hy), ih (k + 1)⟩

/-- The numbers of the lines grow. -/
theorem significant_ordered (input : Text) : (significant input).Pairwise fun x y => x.1 < y.1 := by
  refine List.pairwise_filterMap.mpr ((zipIdx_ordered (getlines input) 1).imp ?_)
  intro x y hlt a ha b hb
  dsimp only at ha hb
  split_ifs at ha hb
  cases ha
  cases hb
  exact hlt

/-- What an accepted text has become. -/
structure Kept (input : Text) (P : Program) : Prop where
  keeps : Keeps (outline input) P.nodes P.functions
  names : (P.functions.map Function.fname).Nodup
  apart : (outline input).Pairwise Header.Apart

theorem keeping_init (input : Text) : Keeping (significant input) .init ⟨[], []⟩ where
  begun := Or.inl rfl
  current _ h := by cases h
  names := List.nodup_nil
  lines := ⟨significant_ordered input, fun _ h => absurd h List.not_mem_nil, .nil⟩
  shape := Or.inl ⟨ParserState.noConfusion, fun _ h => absurd h List.not_mem_nil,
    fun _ h => absurd h List.not_mem_nil, fun _ h => absurd h List.not_mem_nil,
    fun _ h => absurd h List.not_mem_nil, .nil⟩

/-- A text is reported, or kept. -/
theorem parse_kept (input : Text) : Post ParseError.Reported (Kept input) (parse input) := by
  refine parse_post (R := Keeping) (fun h => h.begun) keeping_read (keeping_init input) fun h hstate => ?_
  exact ⟨h.keeps (hstate.trans_ne nofun), h.names, h.lines.apart⟩

section

variable {input : Text} {P : Program}

/-- The functions of a program are found by their names. -/
theorem getFunction_of_mem (hnames : (P.functions.map Function.fname).Nodup) {f : Function}
    (hf : f ∈ P.functions) : P.getFunction f.fname = some f := by
  unfold Program.getFunction
  generalize P.functions = fs at hnames hf
  induction fs with
  | nil => cases hf
  | cons g fs ih =>
    rw [List.map_cons, List.nodup_cons] at hnames
    rcases List.mem_cons.mp hf with rfl | hf
    · exact List.find?_cons_of_pos (decide_eq_true rfl)
    · have hne : g.fname ≠ f.fname := fun heq => hnames.1 (heq ▸ List.mem_map_of_mem hf)
      rw [List.find?_cons_of_neg (by simp [hne])]
      exact ih hnames.2 hf

/-- Where the headers are well written, the blocks are registered as they are written. -/
theorem Kept.faithful (h : Kept input P) (hw : WellWritten input) : Faithful input P := by
  have hname : ∀ h' ∈ outline input, h'.bbname = h'.name := fun h' hh' =>
    (parseBBName_eq_iff (h.keeps.closed h' hh').1).mpr (hw.plain h' hh')
  have hlone := h.keeps.repeats.and hw.lone
  constructor
  · refine hlone.imp_of_mem fun {a b} ha hb hab hfn heq => ?_
    have hbb : a.bbname = b.bbname := by rw [hname a ha, hname b hb, heq]
    exact absurd (hab.1 hfn hbb) (by rw [hab.2 hfn heq]; exact Bool.false_ne_true)
  · intro h' hh'
    rcases h.keeps.complete h' hh' with ⟨f, hf, hfn, p, hp, hat⟩ | ⟨hl, h'', hsub, hfn, hbb⟩
    · rw [hname h' hh'] at hp
      exact ⟨f, p, hfn ▸ getFunction_of_mem h.names hf, hp, hat⟩
    · have hmem : h'' ∈ outline input := hsub.subset List.mem_cons_self
      have heq : h''.name = h'.name := by rw [← hname h'' hmem, ← hname h' hh', hbb]
      have hpair := (List.pairwise_cons.mp (hw.lone.sublist hsub)).1 h' (List.mem_singleton_self h')
      rw [hpair hfn heq] at hl
      cases hl

/-- Where the blocks are registered as they are written, the headers are well written. -/
theorem Kept.wellWritten (h : Kept input P) (hf : Faithful input P) : WellWritten input := by
  constructor
  · intro h' hh'
    have hclosed := h.keeps.closed h' hh'
    refine (parseBBName_eq_iff hclosed.1).mp ?_
    obtain ⟨f, p, hget, hp, node, line, instr, hnode, hfirst, hline, hstmt⟩ := hf.registered h' hh'
    have hmem : f ∈ P.functions := List.mem_of_find?_eq_some hget
    obtain ⟨h'', hh'', hfn, hbb, node', line', instr', hnode', hfirst', hline', -⟩ :=
      h.keeps.entries f hmem _ (mem_of_getBB hp)
    have hsame : h'' = h' := by
      by_contra hne
      refine h.apart.forall hh'' hh' hne _ hfirst' _ hfirst ?_
      rw [hnode] at hnode'
      cases hnode'
      rw [← hline, ← hline']
    rw [← hsame]
    exact hsame ▸ hbb
  · exact hf.distinct.imp fun hne hfn heq => absurd heq (hne hfn)

end

/-- **An accepted text becomes a program with its blocks just where its headers are well written**;
    every other text is reported. -/
theorem parse_faithful_iff (input : Text) :
    Post ParseError.Reported (fun P => Faithful input P ↔ WellWritten input) (parse input) :=
  (parse_kept input).weaken fun _ h => ⟨h.wellWritten, h.faithful⟩

/-- A blank stands before the colon. -/
def blankHeader : Text := "start main 0:\n.a :\nret 0\nend main".toList

/-- The second block of that name is a terminator only. -/
def loneRepeat : Text := "start main 0:\n.a:\nbr .a\n.a:\nret 0\nend main".toList

theorem parse_blankHeader : parse blankHeader =
    .ok ⟨[⟨3, .ret (.literal 0), none⟩], [⟨"main".toList, 0, ".".toList, [(".".toList, 0)]⟩]⟩ := by
  decide +kernel

theorem parse_loneRepeat : parse loneRepeat =
    .ok ⟨[⟨3, .brUncond ".a".toList, none⟩, ⟨5, .ret (.literal 0), none⟩],
      [⟨"main".toList, 0, ".a".toList, [(".a".toList, 0)]⟩]⟩ := by
  decide +kernel

/-- Both texts are accepted, and their blocks are not registered as they are written. -/
theorem not_faithful_accepted : ¬Post ParseError.Reported (Faithful blankHeader) (parse blankHeader) ∧
    ¬Post ParseError.Reported (Faithful loneRepeat) (parse loneRepeat) := by
  constructor
  · rw [parse_blankHeader]
    intro h
    have hk := (parse_kept blankHeader).of_ok parse_blankHeader
    have hplain := (hk.wellWritten h).plain
    revert hplain
    decide +kernel
  · rw [parse_loneRepeat]
    intro h
    have hdistinct := h.distinct
    revert hdistinct
    decide +kernel

end SwppCompiler.Interp
