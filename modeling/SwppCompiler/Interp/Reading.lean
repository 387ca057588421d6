import SwppCompiler.Interp.Outline

/-!
# Reading a text line by line

The loop of `parse` (`interpreter/src/parser.cpp`, lines 566–673) takes the lines one after the other.
`Takes` says what a part of the lines does to the variables of the loop, whatever the numbers of the
lines are; the parts are put together as they stand in the text.

* `getlines_unlines`: the lines of a text that was written line by line.
* `Takes.append`: parts one after the other.
* `Coded.chain`: the statements of a block, one behind the other.
-/

namespace SwppCompiler.Interp.Reading

open Lib Lib.Regex

/-! ## Lines -/

/-- The lines, each with its end. -/
def unlines (ls : List Text) : Text := ls.flatMap fun l => l ++ ['\n']

theorem getlines_append {l : Text} (h : '\n' ∉ l) (s : Text) :
    getlines (l ++ '\n' :: s) = l :: getlines s := by
  induction l with
  | nil => rfl
  | cons c l ih =>
    obtain ⟨hc, hl⟩ := not_or.mp (List.mem_cons.not.mp h)
    rw [List.cons_append, getlines, if_neg (Ne.symm hc), ih hl]

/-- `getline` yields the lines that were written. -/
theorem getlines_unlines {ls : List Text} (h : ∀ l ∈ ls, '\n' ∉ l) : getlines (unlines ls) = ls := by
  induction ls with
  | nil => rfl
  | cons l ls ih =>
    obtain ⟨hl, hls⟩ := List.forall_mem_cons.mp h
    have hcons : unlines (l :: ls) = l ++ '\n' :: unlines ls := by simp [unlines]
    rw [hcons, getlines_append hl, ih hls]

/-- A blank line, or a comment. -/
def Skipped (l : Text) : Prop := (oneOf [tESpace, rComment]).isMatch l = true

instance (l : Text) : Decidable (Skipped l) := inferInstanceAs (Decidable (_ = true))

theorem skipped_iff {l : Text} : Skipped l ↔ l ∈ tESpace.lang ∨ l ∈ rComment.lang := by
  rw [Skipped, isMatch_iff, mem_lang_oneOf]
  simp

theorem skipped_comment {indent s : Text} (hi : ∀ c ∈ indent, isSpace c = true)
    (hs : ∀ c ∈ s, c ≠ '\n' ∧ c ≠ '\r') : Skipped (indent ++ ';' :: s) := by
  refine skipped_iff.mpr (Or.inr (mem_spaced.mpr ⟨indent, ';' :: s, [], hi, ?_, by simp, by simp⟩))
  refine mem_seqs_cons.mpr ⟨_, mem_keyword.mpr rfl, s, mem_seqs_singleton.mpr ?_, rfl⟩
  refine mem_lang_star_set.mpr fun c hc => ?_
  simp [hs c hc]

/-- A line that begins with something else than a semicolon is not skipped. -/
theorem not_skipped {indent s : Text} {c : Char} (hi : ∀ c ∈ indent, isSpace c = true)
    (hc : isSpace c = false) (hne : c ≠ ';') : ¬Skipped (indent ++ c :: s) := by
  have hdrop : (indent ++ c :: s).dropWhile isSpace = c :: s := by
    rw [List.dropWhile_append_of_pos hi, List.dropWhile_cons, hc]
    rfl
  intro h
  rcases skipped_iff.mp h with hblank | hcomment
  · have := mem_tESpace.mp hblank c (by simp)
    rw [hc] at this
    cases this
  · obtain ⟨a, u, b, ha, hu, -, heq⟩ := mem_spaced.mp hcomment
    obtain ⟨v, hv, w, -, rfl⟩ := mem_seqs_cons.mp hu
    rw [mem_keyword.mp hv] at heq
    rw [← heq, List.dropWhile_append_of_pos ha] at hdrop
    exact hne (List.cons.inj hdrop).1.symm

/-- The lines that are not skipped, with their numbers from `k` on. -/
def numbered (k : ℕ) : List Text → List (ℕ × Text)
  | [] => []
  | l :: ls => if Skipped l then numbered (k + 1) ls else (k, l) :: numbered (k + 1) ls

theorem numbered_append (k : ℕ) (ls ls' : List Text) :
    numbered k (ls ++ ls') = numbered k ls ++ numbered (k + ls.length) ls' := by
  induction ls generalizing k with
  | nil => simp [numbered]
  | cons l ls ih =>
    have hk : k + (l :: ls).length = k + 1 + ls.length := by
      rw [List.length_cons]
      omega
    rw [hk, List.cons_append, numbered, numbered, ih]
    split_ifs <;> rfl

theorem significant_unlines {ls : List Text} (h : ∀ l ∈ ls, '\n' ∉ l) :
    significant (unlines ls) = numbered 1 ls := by
  rw [significant, getlines_unlines h]
  clear h
  generalize 1 = k
  induction ls generalizing k with
  | nil => rfl
  | cons l ls ih =>
    rw [List.zipIdx_cons, List.filterMap_cons, ih, numbered]
    by_cases hl : Skipped l
    · rw [if_pos hl]
      have : (oneOf [tESpace, rComment]).isMatch l = true := hl
      simp only [this, if_true]
    · rw [if_neg hl]
      have : (oneOf [tESpace, rComment]).isMatch l = false := Bool.eq_false_iff.mpr hl
      simp only [this, Bool.false_eq_true, if_false]

/-! ## Parts of a text -/

/-- The lines are accepted one after the other, and `Q` holds after them. -/
def Takes (ls : List Text) (c : Parsing) (Q : Parsing → Prop) : Prop :=
  ∀ k, ∃ c', (numbered k ls).foldlM Parsing.parseLine c = .ok c' ∧ Q c'

section

variable {ls ls' : List Text} {l : Text} {c : Parsing} {Q R : Parsing → Prop}

theorem Takes.nil (h : Q c) : Takes [] c Q := fun _ => ⟨c, rfl, h⟩

theorem Takes.skip (hl : Skipped l) (h : Takes ls c Q) : Takes (l :: ls) c Q := fun k => by
  rw [numbered, if_pos hl]
  exact h (k + 1)

theorem Takes.line (hl : ¬Skipped l)
    (h : ∀ k, ∃ c', c.parseLine (k, l) = .ok c' ∧ Takes ls c' Q) : Takes (l :: ls) c Q := fun k => by
  obtain ⟨c', hline, hrest⟩ := h k
  rw [numbered, if_neg hl, List.foldlM_cons, hline]
  exact hrest (k + 1)

theorem Takes.append (h : Takes ls c R) (h' : ∀ c', R c' → Takes ls' c' Q) : Takes (ls ++ ls') c Q := by
  intro k
  obtain ⟨c', hfirst, hR⟩ := h k
  obtain ⟨c'', hrest, hQ⟩ := h' c' hR (k + ls.length)
  refine ⟨c'', ?_, hQ⟩
  rw [numbered_append, List.foldlM_append, hfirst]
  exact hrest

theorem Takes.weaken (h : Takes ls c R) (hR : ∀ c', R c' → Q c') : Takes ls c Q := fun k =>
  let ⟨c', hc', hRc'⟩ := h k
  ⟨c', hc', hR c' hRc'⟩

end

/-! ## The statements of a block -/

/-- The statements are at `p` and the places behind it, each linked to the next. -/
def Coded (nodes : List Node) (p : ℕ) (stmts : List Stmt) : Prop :=
  ∀ i stmt, stmts[i]? = some stmt → ∃ node, nodes[p + i]? = some node ∧ node.stmt = stmt ∧
    node.next = if i + 1 = stmts.length then none else some (p + i + 1)

section

variable {nodes nodes' : List Node} {p line : ℕ} {stmts : List Stmt} {stmt : Stmt}

theorem Coded.mono (h : Coded nodes p stmts) (hpre : nodes <+: nodes') : Coded nodes' p stmts := by
  intro i stmt hi
  obtain ⟨node, hnode, hrest⟩ := h i stmt hi
  obtain ⟨t, rfl⟩ := hpre
  exact ⟨node, by rw [List.getElem?_append_left (List.getElem?_eq_some_iff.mp hnode).1, hnode], hrest⟩

theorem coded_create : Coded (nodes ++ [⟨line, stmt, none⟩]) nodes.length [stmt] := by
  intro i stmt' hi
  have hi0 : i = 0 := by
    have := (List.getElem?_eq_some_iff.mp hi).1
    simpa using this
  subst hi0
  have heq : stmt = stmt' := by simpa using hi
  exact ⟨⟨line, stmt, none⟩, by simp, heq, by simp⟩

/-- The statements with one more, and the link to it. -/
def link (nodes : List Node) (line : ℕ) (stmt : Stmt) : List Node :=
  (nodes ++ [(⟨line, stmt, none⟩ : Node)]).modify (nodes.length - 1)
    fun n => { n with next := some nodes.length }

theorem link_getElem?_lt {q : ℕ} (h : q + 1 < nodes.length) :
    (link nodes line stmt)[q]? = nodes[q]? := by
  rw [link, List.getElem?_modify, List.getElem?_append_left (by omega)]
  simp [show nodes.length - 1 ≠ q by omega]

theorem link_getElem?_last {q : ℕ} (h : q + 1 = nodes.length) :
    (link nodes line stmt)[q]? = nodes[q]?.map fun n => { n with next := some nodes.length } := by
  rw [link, List.getElem?_modify, List.getElem?_append_left (by omega)]
  simp [show nodes.length - 1 = q by omega]

theorem link_getElem?_new (h : nodes ≠ []) :
    (link nodes line stmt)[nodes.length]? = some ⟨line, stmt, none⟩ := by
  have hpos := List.length_pos_iff.mpr h
  rw [link, List.getElem?_modify, List.getElem?_append_right (le_refl _)]
  simp [show nodes.length - 1 ≠ nodes.length by omega]

@[simp] theorem link_length : (link nodes line stmt).length = nodes.length + 1 := by simp [link]

/-- What is before the last statement stays. -/
theorem prefix_link {old : List Node} (h : old <+: nodes) (hlt : old.length < nodes.length) :
    old <+: link nodes line stmt := by
  rw [List.prefix_iff_getElem?] at h ⊢
  intro i hi
  rw [link_getElem?_lt (by omega)]
  exact h i hi

/-- One more statement: the last one is linked to it. -/
theorem Coded.snoc (h : Coded nodes p stmts) (hne : stmts ≠ [])
    (hlen : p + stmts.length = nodes.length) :
    Coded (link nodes line stmt) p (stmts ++ [stmt]) := by
  have hpos := List.length_pos_iff.mpr hne
  intro i stmt' hi
  have hlt : i < (stmts ++ [stmt]).length := (List.getElem?_eq_some_iff.mp hi).1
  rw [List.length_append, List.length_singleton] at hlt ⊢
  by_cases hold : i < stmts.length
  · rw [List.getElem?_append_left hold] at hi
    obtain ⟨node, hnode, hstmt, hnext⟩ := h i stmt' hi
    by_cases hlast : i + 1 = stmts.length
    · rw [link_getElem?_last (by omega), hnode]
      exact ⟨_, rfl, hstmt, by simp; omega⟩
    · rw [link_getElem?_lt (by omega), hnode]
      refine ⟨_, rfl, hstmt, ?_⟩
      rw [hnext, if_neg hlast, if_neg (by omega)]
  · have heq : i = stmts.length := by omega
    subst heq
    have hstmt : stmt = stmt' := by simpa using hi
    have hnil : nodes ≠ [] := List.length_pos_iff.mp (by omega)
    rw [hlen, link_getElem?_new hnil]
    exact ⟨_, rfl, hstmt, by simp⟩

theorem coded_tail (h : Coded nodes p (stmt :: stmts)) : Coded nodes (p + 1) stmts := by
  intro i stmt' hi
  obtain ⟨node, hnode, hstmt, hnext⟩ := h (i + 1) stmt' (by rwa [List.getElem?_cons_succ])
  have hp : p + 1 + i = p + (i + 1) := by omega
  refine ⟨node, by rw [hp, hnode], hstmt, ?_⟩
  rw [hnext, hp, List.length_cons]
  simp only [Nat.add_right_cancel_iff]

/-- The statements are a chain of the program. -/
theorem Coded.chain {P : Program} (h : Coded P.nodes p stmts) (hne : stmts ≠ []) :
    P.Chain p stmts := by
  induction stmts generalizing p with
  | nil => exact absurd rfl hne
  | cons stmt stmts ih =>
    obtain ⟨node, hnode, hstmt, hnext⟩ := h 0 stmt rfl
    rw [Nat.add_zero] at hnode hnext
    refine Program.chain_cons_iff.mpr ⟨node, hnode, hstmt, ?_⟩
    by_cases hnil : stmts = []
    · refine Or.inl ⟨?_, hnil⟩
      rw [hnext, if_pos (by rw [hnil]; rfl)]
    · have hpos := List.length_pos_iff.mpr hnil
      refine Or.inr ⟨p + 1, ?_, ih (coded_tail h) hnil⟩
      rw [hnext, if_neg (by rw [List.length_cons]; omega)]

end

/-! ## The lines of a block -/

/-- The function with a block more. -/
def addBB (f : Function) (bb : Text) (p : ℕ) : Function := { f with bbMap := f.bbMap ++ [(bb, p)] }

theorem setBB_of_new {f : Function} {bb : Text} {p : ℕ} (h : f.getBB bb = none) :
    f.setBB bb p = some (addBB f bb p) := by
  rw [Function.setBB, h]
  rfl

/-- The statements of a block that begins behind `old`. -/
structure Block (old : List Node) (stmts : List Stmt) (nodes : List Node) : Prop where
  pre : old <+: nodes
  coded : Coded nodes old.length stmts
  length : old.length + stmts.length = nodes.length

section

variable {old nodes : List Node} {stmts : List Stmt} {stmt : Stmt} {line : ℕ}

theorem Block.create : Block old [stmt] (old ++ [⟨line, stmt, none⟩]) where
  pre := List.prefix_append _ _
  coded := coded_create
  length := by simp

theorem Block.link (h : Block old stmts nodes) (hne : stmts ≠ []) :
    Block old (stmts ++ [stmt]) (link nodes line stmt) where
  pre := by
    have hpos := List.length_pos_iff.mpr hne
    have hlen := h.length
    exact prefix_link h.pre (by omega)
  coded := h.coded.snoc hne h.length
  length := by
    have hlen := h.length
    simp only [List.length_append, List.length_singleton, link_length]
    omega

end

/-- Inside the block `bb` of the function `f`, after `stmts`; `old` are the statements before the
    block, `fs` the functions before `f`. -/
inductive Within (old : List Node) (f : Function) (fs : List Function) (bb : Text) :
    List Stmt → Parsing → Prop
  | first {c : Parsing} (hs : c.state = .psStartBB) (hbb : c.currBB = bb)
      (hf : c.functions = f :: fs) (hn : c.nodes = old) : Within old f fs bb [] c
  | next {c : Parsing} {stmts : List Stmt} (hs : c.state = .psNormal)
      (hf : c.functions = addBB f bb old.length :: fs) (hne : stmts ≠ [])
      (hb : Block old stmts c.nodes) (hprev : c.prevStmt = c.nodes.length - 1) :
      Within old f fs bb stmts c

/-- Behind the block. -/
structure Behind (old : List Node) (f : Function) (fs : List Function) (bb : Text)
    (stmts : List Stmt) (c : Parsing) : Prop where
  state : c.state = .psEndBB
  functions : c.functions = addBB f bb old.length :: fs
  block : Block old stmts c.nodes

section

variable {old : List Node} {f : Function} {fs : List Function} {bb l : Text} {stmts : List Stmt}
  {stmt : Stmt} {c : Parsing}

/-- A line of the block that is no terminator. -/
theorem Within.normalLine (h : Within old f fs bb stmts c) (hnew : f.getBB bb = none)
    (hl : parseNormalStmt l = .ok (some stmt)) (k : ℕ) :
    ∃ c', c.parseLine (k, l) = .ok c' ∧ Within old f fs bb (stmts ++ [stmt]) c' := by
  cases h with
  | first hs hbb hf hn =>
    refine ⟨{ c.create k stmt with
      functions := addBB f bb old.length :: fs, prevStmt := old.length, state := .psNormal }, ?_,
      .next rfl rfl (List.cons_ne_nil _ _) ?_ ?_⟩
    · simp only [Parsing.parseLine, hs, Parsing.firstLine, hf, hl, hbb, hn, setBB_of_new hnew]
      rfl
    · show Block old [stmt] (c.nodes ++ _)
      rw [hn]
      exact Block.create
    · show old.length = (c.nodes ++ _).length - 1
      simp [hn]
  | next hs hf hne hb hprev =>
    refine ⟨{ (c.create k stmt).setNext c.nodes.length with
      prevStmt := c.nodes.length, state := .psNormal }, ?_, .next rfl hf (by simp) ?_ ?_⟩
    · simp only [Parsing.parseLine, hs, Parsing.nextLine, hl]
      rfl
    · show Block old _ ((c.nodes ++ _).modify c.prevStmt _)
      rw [hprev]
      exact hb.link hne
    · show c.nodes.length = ((c.nodes ++ _).modify _ _).length - 1
      simp

/-- The line of the terminator. -/
theorem Within.lastLine (h : Within old f fs bb stmts c) (hnew : f.getBB bb = none)
    (hnot : parseNormalStmt l = .ok none) (hl : parseTerminator l = .ok (some stmt)) (k : ℕ) :
    ∃ c', c.parseLine (k, l) = .ok c' ∧ Behind old f fs bb (stmts ++ [stmt]) c' := by
  cases h with
  | first hs hbb hf hn =>
    refine ⟨{ c.create k stmt with functions := addBB f bb old.length :: fs, state := .psEndBB }, ?_,
      rfl, rfl, ?_⟩
    · simp only [Parsing.parseLine, hs, Parsing.firstLine, hf, hnot, hl, hbb, hn, setBB_of_new hnew]
      rfl
    · show Block old [stmt] (c.nodes ++ _)
      rw [hn]
      exact Block.create
  | next hs hf hne hb hprev =>
    refine ⟨{ (c.create k stmt).setNext c.nodes.length with state := .psEndBB }, ?_, rfl, hf, ?_⟩
    · simp only [Parsing.parseLine, hs, Parsing.nextLine, hnot, hl]
      rfl
    · show Block old _ ((c.nodes ++ _).modify c.prevStmt _)
      rw [hprev]
      exact hb.link hne

end

/-! ## The forms of the lines -/

/-- A line of a block: a statement, or nothing. -/
def Denotes (l : Text) : Option Stmt → Prop
  | some stmt => ¬Skipped l ∧ parseNormalStmt l = .ok (some stmt)
  | none => Skipped l

/-- The line of a terminator. -/
structure LastLine (l : Text) (stmt : Stmt) : Prop where
  notSkipped : ¬Skipped l
  notNormal : parseNormalStmt l = .ok none
  terminator : parseTerminator l = .ok (some stmt)

/-- The header of the block `bb`. -/
structure HeaderLine (l bb : Text) : Prop where
  notSkipped : ¬Skipped l
  mem : l ∈ rBBStart.lang
  name : parseBBName l = bb

/-- The line that starts the function `fname`. -/
structure StartLine (l fname : Text) (nargs : ℕ) : Prop where
  notSkipped : ¬Skipped l
  mem : l ∈ rStartFunction.lang
  function : parseStartFunction l = .ok ⟨fname, nargs, [], []⟩

/-- The line that ends it. -/
structure EndLine (l fname : Text) : Prop where
  notSkipped : ¬Skipped l
  notHeader : l ∉ rBBStart.lang
  mem : l ∈ rEndFunction.lang
  name : parseEndFunction l fname = true

/-- The lines of a block with the statements `b.2`. -/
inductive BlockText : List Text → Text × List Stmt → Prop
  | intro {gap body : List Text} {header last bb : Text} {stmts : List (Option Stmt)} {stmt : Stmt}
      (hgap : ∀ l ∈ gap, Skipped l) (hheader : HeaderLine header bb)
      (hbody : List.Forall₂ Denotes body stmts) (hlast : LastLine last stmt) :
      BlockText (gap ++ header :: (body ++ [last])) (bb, stmts.reduceOption ++ [stmt])

/-- A function, by the statements of its blocks. -/
structure FuncCode where
  fname : Text
  nargs : ℕ
  blocks : List (Text × List Stmt)

/-- The name of the first block. -/
def FuncCode.firstBB (d : FuncCode) : Text := (d.blocks.head?.map Prod.fst).getD []

/-- The lines of a function. -/
inductive FunctionText (d : FuncCode) : List Text → Prop
  | intro {gap : List Text} {start last : Text} {blocks : List (List Text)}
      (hgap : ∀ l ∈ gap, Skipped l) (hstart : StartLine start d.fname d.nargs)
      (hblocks : List.Forall₂ BlockText blocks d.blocks) (hne : d.blocks ≠ [])
      (hnames : (d.blocks.map Prod.fst).Nodup) (hlast : EndLine last d.fname) :
      FunctionText d (gap ++ start :: (blocks.flatten ++ [last]))

/-- What the variables of `parse` hold of a function. -/
structure Means (nodes : List Node) (f : Function) (d : FuncCode) : Prop where
  fname : f.fname = d.fname
  nargs : f.nargs = d.nargs
  firstBB : f.firstBB = d.firstBB
  blocks : List.Forall₂ (fun e b => e.1 = b.1 ∧ Coded nodes e.2 b.2) f.bbMap d.blocks

theorem Means.mono {nodes nodes' : List Node} {f : Function} {d : FuncCode} (h : Means nodes f d)
    (hpre : nodes <+: nodes') : Means nodes' f d :=
  ⟨h.fname, h.nargs, h.firstBB, h.blocks.imp fun _ _ hb => ⟨hb.1, hb.2.mono hpre⟩⟩

/-! ## The text of a function -/

section

variable {old : List Node} {f : Function} {fs : List Function} {bb l : Text} {stmts : List Stmt}
  {c : Parsing} {ls gap : List Text} {Q : Parsing → Prop}

theorem Takes.skips (hgap : ∀ l ∈ gap, Skipped l) (h : Takes ls c Q) : Takes (gap ++ ls) c Q := by
  induction gap with
  | nil => exact h
  | cons l gap ih =>
    obtain ⟨hl, hgap⟩ := List.forall_mem_cons.mp hgap
    exact .skip hl (ih hgap)

/-- The lines before the terminator. -/
theorem takes_body {os : List (Option Stmt)} (hls : List.Forall₂ Denotes ls os)
    (hnew : f.getBB bb = none) (h : Within old f fs bb stmts c) :
    Takes ls c (Within old f fs bb (stmts ++ os.reduceOption)) := by
  induction hls generalizing stmts c with
  | nil => exact .nil (by simpa using h)
  | @cons l o ls os hl _ ih =>
    cases o with
    | none => exact .skip hl (by simpa using ih h)
    | some stmt =>
      refine .line hl.1 fun k => ?_
      obtain ⟨c', hc', hwithin⟩ := h.normalLine hnew hl.2 k
      refine ⟨c', hc', ?_⟩
      have hrest := ih hwithin
      rwa [List.append_assoc] at hrest

/-- The lines after the header. -/
theorem takes_block {os : List (Option Stmt)} {last : Text} {stmt : Stmt}
    (hls : List.Forall₂ Denotes ls os) (hlast : LastLine last stmt) (hnew : f.getBB bb = none)
    (h : Within old f fs bb [] c) :
    Takes (ls ++ [last]) c (Behind old f fs bb (os.reduceOption ++ [stmt])) := by
  refine (takes_body hls hnew h).append fun c' hc' => .line hlast.notSkipped fun k => ?_
  obtain ⟨c'', hc'', hbehind⟩ := hc'.lastLine hnew hlast.notNormal hlast.terminator k
  exact ⟨c'', hc'', .nil hbehind⟩

/-- The header of the first block. -/
theorem HeaderLine.first (hl : HeaderLine l bb) (hs : c.state = .psStartFunction)
    (hf : c.functions = f :: fs) (k : ℕ) :
    ∃ c', c.parseLine (k, l) = .ok c' ∧ Within c.nodes { f with firstBB := bb } fs bb [] c' := by
  refine ⟨{ c with currBB := bb, functions := { f with firstBB := bb } :: fs, state := .psStartBB },
    ?_, .first rfl rfl rfl rfl⟩
  simp only [Parsing.parseLine, hs, Parsing.headerLine, (isMatch_iff _ _).mpr hl.mem, if_true, hf,
    hl.name]

/-- The header of another block. -/
theorem HeaderLine.next (hl : HeaderLine l bb) (hs : c.state = .psEndBB) (hf : c.functions = f :: fs)
    (k : ℕ) : ∃ c', c.parseLine (k, l) = .ok c' ∧ Within c.nodes f fs bb [] c' := by
  refine ⟨{ c with currBB := bb, state := .psStartBB }, ?_, .first rfl rfl hf rfl⟩
  simp only [Parsing.parseLine, hs, Parsing.blockLine, (isMatch_iff _ _).mpr hl.mem, if_true, hl.name]

end

/-- After some blocks of a function: `d` has them, `fs` and `ds` are the functions before. -/
structure InFunction (fs : List Function) (ds : List FuncCode) (fname : Text) (nargs : ℕ)
    (done : List (Text × List Stmt)) (c : Parsing) : Prop where
  state : c.state = .psEndBB
  functions : ∃ f, c.functions = f :: fs ∧ Means c.nodes f ⟨fname, nargs, done⟩
  before : List.Forall₂ (Means c.nodes) fs ds

section

variable {old : List Node} {f : Function} {fs : List Function} {ds : List FuncCode} {fname bb : Text}
  {nargs : ℕ} {stmts : List Stmt} {c : Parsing} {done : List (Text × List Stmt)}
  {b : Text × List Stmt} {ls : List Text}

theorem getBB_eq_none {nodes : List Node} {d : FuncCode} (h : Means nodes f d)
    (hnew : bb ∉ d.blocks.map Prod.fst) : f.getBB bb = none := by
  have hmap : f.bbMap.map Prod.fst = d.blocks.map Prod.fst := by
    have h2 := h.blocks
    generalize f.bbMap = m at h2
    generalize d.blocks = bs at h2
    induction h2 with
    | nil => rfl
    | cons hb _ ih => rw [List.map_cons, List.map_cons, hb.1, ih]
  rw [Function.getBB, List.lookup_eq_none_iff]
  intro e he
  rw [bne_iff_ne]
  rintro rfl
  exact hnew (hmap ▸ List.mem_map_of_mem he)

/-- A block more. -/
theorem Behind.means (h : Behind old f fs bb stmts c)
    (hf : List.Forall₂ (fun e b => e.1 = b.1 ∧ Coded old e.2 b.2) f.bbMap done)
    (hname : f.fname = fname) (hnargs : f.nargs = nargs)
    (hfirst : f.firstBB = FuncCode.firstBB ⟨fname, nargs, done ++ [(bb, stmts)]⟩)
    (hbefore : List.Forall₂ (Means old) fs ds) :
    InFunction fs ds fname nargs (done ++ [(bb, stmts)]) c where
  state := h.state
  functions := by
    refine ⟨_, h.functions, hname, hnargs, hfirst, ?_⟩
    refine List.rel_append (hf.imp fun _ _ hb => ⟨hb.1, hb.2.mono h.block.pre⟩) ?_
    exact .cons ⟨rfl, h.block.coded⟩ .nil
  before := hbefore.imp fun _ _ hm => hm.mono h.block.pre

/-- The first block of a function. -/
theorem takes_first (hb : BlockText ls b) (hs : c.state = .psStartFunction)
    (hf : c.functions = ⟨fname, nargs, [], []⟩ :: fs) (hbefore : List.Forall₂ (Means c.nodes) fs ds) :
    Takes ls c (InFunction fs ds fname nargs [b]) := by
  obtain ⟨hgap, hheader, hbody, hlast⟩ := hb
  refine .skips hgap (.line hheader.notSkipped fun k => ?_)
  obtain ⟨c', hc', hwithin⟩ := hheader.first hs hf k
  refine ⟨c', hc', (takes_block hbody hlast rfl hwithin).weaken fun c'' hc'' => ?_⟩
  have hnone : List.Forall₂ (fun (e : Text × ℕ) (b : Text × List Stmt) =>
      e.1 = b.1 ∧ Coded c.nodes e.2 b.2) [] [] := .nil
  exact hc''.means hnone rfl rfl rfl hbefore

/-- Another block. -/
theorem takes_next (hb : BlockText ls b) (hnew : b.1 ∉ done.map Prod.fst) (hne : done ≠ [])
    (h : InFunction fs ds fname nargs done c) :
    Takes ls c (InFunction fs ds fname nargs (done ++ [b])) := by
  obtain ⟨hgap, hheader, hbody, hlast⟩ := hb
  obtain ⟨f, hf, hmeans⟩ := h.functions
  refine .skips hgap (.line hheader.notSkipped fun k => ?_)
  obtain ⟨c', hc', hwithin⟩ := hheader.next h.state hf k
  refine ⟨c', hc', (takes_block hbody hlast (getBB_eq_none hmeans hnew) hwithin).weaken
    fun c'' hc'' => ?_⟩
  refine hc''.means hmeans.blocks hmeans.fname hmeans.nargs ?_ h.before
  obtain ⟨x, xs, rfl⟩ := List.exists_cons_of_ne_nil hne
  exact hmeans.firstBB

/-- The other blocks. -/
theorem takes_blocks {lss : List (List Text)} {bs : List (Text × List Stmt)}
    (hbs : List.Forall₂ BlockText lss bs) (hne : done ≠ [])
    (hnames : ((done ++ bs).map Prod.fst).Nodup) (h : InFunction fs ds fname nargs done c) :
    Takes lss.flatten c (InFunction fs ds fname nargs (done ++ bs)) := by
  induction hbs generalizing done c with
  | nil => exact .nil (by simpa using h)
  | @cons ls b lss bs hb _ ih =>
    have hnew : b.1 ∉ done.map Prod.fst := by
      rw [List.map_append, List.nodup_append] at hnames
      intro hmem
      exact hnames.2.2 _ hmem _ (by simp) rfl
    refine (takes_next hb hnew hne h).append fun c' hc' => ?_
    have happ : done ++ b :: bs = done ++ [b] ++ bs := by simp
    rw [happ] at hnames ⊢
    exact ih (by simp) hnames hc'

end

/-! ## Programs -/

/-- Between functions; the one that was read last comes first. -/
structure Between (ds : List FuncCode) (c : Parsing) : Prop where
  state : c.state = if ds = [] then .psBegin else .psEndFunction
  functions : List.Forall₂ (Means c.nodes) c.functions ds

section

variable {ds : List FuncCode} {d : FuncCode} {c : Parsing} {ls : List Text}

theorem names_of_means {nodes : List Node} {fs : List Function}
    (h : List.Forall₂ (Means nodes) fs ds) : fs.map Function.fname = ds.map FuncCode.fname := by
  induction h with
  | nil => rfl
  | cons hf _ ih => rw [List.map_cons, List.map_cons, hf.fname, ih]

/-- The line that starts a function. -/
theorem StartLine.takes {l : Text} (hl : StartLine l d.fname d.nargs) (h : Between ds c)
    (hlib : d.fname ≠ "read".toList ∧ d.fname ≠ "write".toList)
    (hnew : d.fname ∉ ds.map FuncCode.fname) (k : ℕ) :
    c.parseLine (k, l) =
      .ok { c with functions := ⟨d.fname, d.nargs, [], []⟩ :: c.functions,
                   state := .psStartFunction } := by
  have hset : setFunction c.functions ⟨d.fname, d.nargs, [], []⟩ =
      some (⟨d.fname, d.nargs, [], []⟩ :: c.functions) := by
    rw [setFunction, List.find?_eq_none.mpr]
    intro g hg heq
    have heq : g.fname = d.fname := of_decide_eq_true heq
    exact hnew (names_of_means h.functions ▸ heq ▸ List.mem_map_of_mem hg)
  have hline : c.parseLine (k, l) = c.startLine l := by
    have hs := h.state
    split_ifs at hs <;> simp only [Parsing.parseLine, hs]
  rw [hline, Parsing.startLine, if_pos ((isMatch_iff _ _).mpr hl.mem), hl.function]
  simp only [bind, Except.bind, hlib.1, hlib.2, or_self, if_false, hset]

/-- A function. -/
theorem takes_function (hls : FunctionText d ls) (h : Between ds c)
    (hlib : d.fname ≠ "read".toList ∧ d.fname ≠ "write".toList)
    (hnew : d.fname ∉ ds.map FuncCode.fname) : Takes ls c (Between (d :: ds)) := by
  obtain ⟨hgap, hstart, hblocks, hne, hnames, hlast⟩ := hls
  refine .skips hgap (.line hstart.notSkipped fun k => ?_)
  refine ⟨_, hstart.takes h hlib hnew k, ?_⟩
  obtain ⟨fname, nargs, blocks⟩ := d
  cases hblocks with
  | nil => exact absurd rfl hne
  | @cons ls b lss bs hb hbs =>
    rw [List.flatten_cons, List.append_assoc]
    refine Takes.append (R := InFunction c.functions ds fname nargs [b]) ?_ fun c' hc' => ?_
    · exact takes_first hb rfl rfl h.functions
    have hrest := takes_blocks hbs (List.cons_ne_nil b []) hnames hc'
    refine hrest.append fun c' hc' => .line hlast.notSkipped fun k' => ?_
    obtain ⟨f, hf, hmeans⟩ := hc'.functions
    refine ⟨{ c' with state := .psEndFunction }, ?_, .nil ⟨rfl, ?_⟩⟩
    · have hheader : rBBStart.isMatch _ = false :=
        Bool.eq_false_iff.mpr fun h' => hlast.notHeader ((isMatch_iff _ _).mp h')
      have hend := (isMatch_iff _ _).mpr hlast.mem
      have hname := hlast.name
      rw [← hmeans.fname] at hname
      simp only [Parsing.parseLine, hc'.state, Parsing.blockLine, hheader, hend, hf, hname, if_true,
        Bool.false_eq_true, if_false]
    · show List.Forall₂ (Means c'.nodes) c'.functions _
      rw [hf]
      exact .cons hmeans hc'.before

/-- The functions one after the other. -/
theorem takes_functions {lss : List (List Text)} {ds' : List FuncCode}
    (hls : List.Forall₂ (fun ls d => FunctionText d ls) lss ds') (h : Between ds c)
    (hlib : ∀ d ∈ ds', d.fname ≠ "read".toList ∧ d.fname ≠ "write".toList)
    (hnames : ((ds'.reverse ++ ds).map FuncCode.fname).Nodup) :
    Takes lss.flatten c (Between (ds'.reverse ++ ds)) := by
  induction hls generalizing ds c with
  | nil => exact .nil (by simpa using h)
  | @cons ls d lss ds' hd _ ih =>
    obtain ⟨hlibd, hlib⟩ := List.forall_mem_cons.mp hlib
    have happ : (d :: ds').reverse ++ ds = ds'.reverse ++ d :: ds := by simp
    rw [happ] at hnames ⊢
    have hnew : d.fname ∉ ds.map FuncCode.fname := by
      rw [List.map_append, List.nodup_append] at hnames
      exact (List.nodup_cons.mp hnames.2.1).1
    exact (takes_function hd h hlibd hnew).append fun c' hc' => ih hc' hlib hnames

theorem FunctionText.names_nodup (hls : FunctionText d ls) : (d.blocks.map Prod.fst).Nodup := by
  obtain ⟨-, -, -, -, hnames, -⟩ := hls
  exact hnames

theorem exists_of_forall₂ {α β : Type} {R : α → β → Prop} {l : List α} {m : List β}
    (h : List.Forall₂ R l m) {b : β} (hb : b ∈ m) : ∃ a ∈ l, R a b := by
  induction h with
  | nil => cases hb
  | @cons a b' l m hR _ ih =>
    rcases List.mem_cons.mp hb with rfl | hb
    · exact ⟨a, List.mem_cons_self, hR⟩
    · obtain ⟨a', ha', hR'⟩ := ih hb
      exact ⟨a', List.mem_cons_of_mem a ha', hR'⟩

/-- No block is empty. -/
theorem FunctionText.stmts_ne_nil (hls : FunctionText d ls) : ∀ b ∈ d.blocks, b.2 ≠ [] := by
  obtain ⟨-, -, hblocks, -, -, -⟩ := hls
  intro b hb
  obtain ⟨l, -, hl⟩ := exists_of_forall₂ hblocks hb
  obtain ⟨-, -, -, -⟩ := hl
  simp

/-- The program runs the blocks of the function under their names, the first one first. -/
structure HasFunction (P : Program) (d : FuncCode) (f : Function) : Prop where
  found : P.getFunction d.fname = some f
  nargs : f.nargs = d.nargs
  blocks : f.bbMap.map Prod.fst = d.blocks.map Prod.fst
  code : ∀ b ∈ d.blocks, ∃ p, f.getBB b.1 = some p ∧ P.Chain p b.2
  first : ∀ b ∈ d.blocks.head?, ∃ p, f.getFirstBB = some p ∧ P.Chain p b.2

/-- The blocks are found by their names. -/
theorem lookup_of_forall₂ {m : List (Text × ℕ)} {bs : List (Text × List Stmt)} {R : ℕ → List Stmt → Prop}
    (h : List.Forall₂ (fun e b => e.1 = b.1 ∧ R e.2 b.2) m bs) (hnames : (bs.map Prod.fst).Nodup)
    {b : Text × List Stmt} (hb : b ∈ bs) : ∃ p, m.lookup b.1 = some p ∧ R p b.2 := by
  induction h with
  | nil => cases hb
  | @cons e b' m bs he _ ih =>
    obtain ⟨hnew, hnames⟩ := List.nodup_cons.mp hnames
    obtain ⟨name, p⟩ := e
    rcases List.mem_cons.mp hb with rfl | hb
    · exact ⟨p, by rw [List.lookup_cons, ← he.1, beq_self_eq_true], he.2⟩
    · obtain ⟨q, hq, hR⟩ := ih hnames hb
      have hne : b.1 ≠ name := by
        rintro heq
        exact hnew (he.1 ▸ heq ▸ List.mem_map_of_mem hb)
      exact ⟨q, by rw [List.lookup_cons, beq_false_of_ne hne, hq], hR⟩

theorem Means.hasFunction {P : Program} {f : Function} (h : Means P.nodes f d)
    (hls : FunctionText d ls) (hf : f ∈ P.functions) (hnames : (P.functions.map Function.fname).Nodup) :
    HasFunction P d f := by
  have hcode : ∀ b ∈ d.blocks, ∃ p, f.getBB b.1 = some p ∧ P.Chain p b.2 := by
    intro b hb
    obtain ⟨p, hp, hcoded⟩ := lookup_of_forall₂ h.blocks hls.names_nodup hb
    exact ⟨p, hp, hcoded.chain (hls.stmts_ne_nil b hb)⟩
  refine ⟨h.fname ▸ getFunction_of_mem hnames hf, h.nargs, ?_, hcode, fun b hb => ?_⟩
  · have hblocks := h.blocks
    generalize f.bbMap = m at hblocks
    generalize d.blocks = bs at hblocks
    induction hblocks with
    | nil => rfl
    | cons hb _ ih => rw [List.map_cons, List.map_cons, hb.1, ih]
  · have hfirst : f.getFirstBB = f.getBB b.1 := by
      rw [Function.getFirstBB, h.firstBB, FuncCode.firstBB, Option.mem_def.mp hb]
      rfl
    rw [hfirst]
    exact hcode b (List.mem_of_mem_head? hb)

end

/-- A text of functions of these forms is accepted, and its program has them, no others. -/
theorem parse_functions {lss : List (List Text)} {ds : List FuncCode}
    (hls : List.Forall₂ (fun ls d => FunctionText d ls) lss ds)
    (hlines : ∀ l ∈ lss.flatten, '\n' ∉ l)
    (hlib : ∀ d ∈ ds, d.fname ≠ "read".toList ∧ d.fname ≠ "write".toList)
    (hnames : (ds.map FuncCode.fname).Nodup) (hmain : ∃ d ∈ ds, d.fname = "main".toList ∧ d.nargs = 0) :
    ∃ P, parse (unlines lss.flatten) = .ok P ∧
      P.functions.map Function.fname = (ds.map FuncCode.fname).reverse ∧
      ∀ d ∈ ds, ∃ f, HasFunction P d f := by
  have hrev : ((ds.reverse ++ []).map FuncCode.fname).Nodup := by
    rw [List.append_nil, List.map_reverse, List.nodup_reverse]
    exact hnames
  have hinit : Between [] .init := ⟨rfl, .nil⟩
  obtain ⟨c, hc, hbetween⟩ := takes_functions hls hinit hlib hrev 1
  rw [List.append_nil] at hbetween
  obtain ⟨d, hd, hdname, hdnargs⟩ := hmain
  have hne : ds.reverse ≠ [] := by
    rintro heq
    rw [List.reverse_eq_nil_iff.mp heq] at hd
    cases hd
  have hstate : c.state = .psEndFunction := hbetween.state.trans (if_neg hne)
  have hfnames : c.functions.map Function.fname = (ds.map FuncCode.fname).reverse := by
    rw [names_of_means hbetween.functions, List.map_reverse]
  have hnodup : (c.functions.map Function.fname).Nodup := by
    rw [hfnames, List.nodup_reverse]
    exact hnames
  have hhas : ∀ d ∈ ds, ∃ f, HasFunction ⟨c.nodes, c.functions⟩ d f := by
    intro d hd
    obtain ⟨ls, -, htext⟩ := exists_of_forall₂ hls hd
    obtain ⟨f, hf, hmeans⟩ := exists_of_forall₂ hbetween.functions (List.mem_reverse.mpr hd)
    exact ⟨f, hmeans.hasFunction htext hf hnodup⟩
  obtain ⟨f, hf⟩ := hhas d hd
  have hmain : Program.getFunction ⟨c.nodes, c.functions⟩ "main".toList = some f := hdname ▸ hf.found
  refine ⟨⟨c.nodes, c.functions⟩, ?_, hfnames, hhas⟩
  rw [parse, significant_unlines hlines, hc]
  show (if c.state ≠ .psEndFunction then _ else _) = _
  rw [if_neg (not_not.mpr hstate), hmain]
  exact if_neg (not_not.mpr (hf.nargs.trans hdnargs))

end SwppCompiler.Interp.Reading
