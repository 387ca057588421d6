import SwppCompiler.Interp.Lines
import SwppCompiler.Lib.StateExcept

/-!
# What `parse` accepts

* `parseNormalStmt_post`, `parseTerminator_post`: a line is a statement, or reported.
* `parseLine_post`: what an accepted line does to the variables of `parse`, one constructor of
  `Reads` for each way through the `switch`.
-/

namespace SwppCompiler.Interp

open Lib Lib.Regex Lib.StateExcept

/-- An error that `invoke_syntax_error` reports. -/
def ParseError.Reported (e : ParseError) : Prop := ∃ msg, e = .syntaxError msg

/-! ## Lines that are statements -/

theorem post_syntaxError {α : Type} {post : α → Prop} (msg : String) :
    Post ParseError.Reported post (syntaxError msg) := ⟨msg, rfl⟩

theorem parseReg_post {s : Text} (h : s ∈ tReg.lang) :
    Post ParseError.Reported (fun _ => True) (parseReg s) := by
  obtain ⟨reg, hne, rfl⟩ := mem_tReg.mp h
  rw [parseReg_printReg hne]
  trivial

theorem parseConst_post (s : Text) : Post ParseError.Reported (fun _ => True) (parseConst s) := by
  unfold parseConst
  split
  · trivial
  · exact post_syntaxError _

theorem parseValue_post (s : Text) : Post ParseError.Reported (fun _ => True) (parseValue s) := by
  unfold parseValue
  refine Post.ite (fun h => ?_) fun _ => (parseConst_post s).map fun _ _ => trivial
  exact (parseReg_post ((isMatch_iff _ _).mp h)).map fun _ _ => trivial

theorem parseMSize_post (s : Text) : Post ParseError.Reported (fun _ => True) (parseMSize s) := by
  unfold parseMSize
  repeat' refine Post.ite (fun _ => trivial) fun _ => ?_
  exact post_syntaxError _

theorem parseSize_post (s : Text) : Post ParseError.Reported (fun _ => True) (parseSize s) := by
  unfold parseSize
  repeat' refine Post.ite (fun _ => trivial) fun _ => ?_
  exact post_syntaxError _

theorem parseKind_post (names : List (String × BopKind)) (msg : String) (s : Text) :
    Post ParseError.Reported (fun _ => True) (parseKind names msg s) := by
  unfold parseKind
  split
  · trivial
  · exact post_syntaxError _

theorem parseAssign_post (instr : Text) :
    Post ParseError.Reported (fun _ => True) (parseAssign instr) := by
  unfold parseAssign
  refine Post.ite (fun h => ?_) fun _ => trivial
  exact (parseReg_post ((isMatch_iff _ _).mp h)).bind fun _ _ => trivial

/-- The first token of a line that begins with a register. -/
theorem nextToken_mem {r : Regex Char} {instr token : Text} {ws : List (Regex Char)}
    (h : WordsMatch (words isSep instr) (r :: ws)) : (nextToken (stream instr) token).1 ∈ r.lang := by
  obtain ⟨w, l, hw, -, heq⟩ := wordsMatch_cons.mp h
  rw [stream_eq, heq]
  exact hw

/-- A statement of that kind, or a reported error. -/
def StmtPost (terminator : Bool) : Except ParseError Stmt → Prop :=
  Post ParseError.Reported fun stmt => stmt.isTerminator = terminator

theorem parseMalloc_post {instr : Text} (h : instr ∈ rMalloc.lang) :
    StmtPost false (parseMalloc instr) := by
  refine (parseReg_post (nextToken_mem (words_rMalloc h))).bind fun _ _ => ?_
  exact (parseValue_post _).bind fun _ _ => rfl

theorem parseFree_post (instr : Text) : StmtPost false (parseFree instr) :=
  (parseValue_post _).bind fun _ _ => rfl

theorem parseLoad_post {instr : Text} (h : instr ∈ rLoad.lang) : StmtPost false (parseLoad instr) := by
  refine (parseReg_post (nextToken_mem (words_rLoad h))).bind fun _ _ => ?_
  refine (parseMSize_post _).bind fun _ _ => ?_
  refine (parseValue_post _).bind fun _ _ => ?_
  exact (parseConst_post _).bind fun _ _ => rfl

theorem parseStore_post (instr : Text) : StmtPost false (parseStore instr) := by
  refine (parseMSize_post _).bind fun _ _ => ?_
  refine (parseValue_post _).bind fun _ _ => ?_
  refine (parseValue_post _).bind fun _ _ => ?_
  exact (parseConst_post _).bind fun _ _ => rfl

theorem parseBop_post {instr : Text} (h : instr ∈ rBop.lang) : StmtPost false (parseBop instr) := by
  refine (parseReg_post (nextToken_mem (words_rBop h))).bind fun _ _ => ?_
  refine (parseKind_post _ _ _).bind fun _ _ => ?_
  refine (parseValue_post _).bind fun _ _ => ?_
  refine (parseValue_post _).bind fun _ _ => ?_
  exact (parseSize_post _).bind fun _ _ => rfl

theorem parseIcmp_post {instr : Text} (h : instr ∈ rIcmp.lang) : StmtPost false (parseIcmp instr) := by
  refine (parseReg_post (nextToken_mem (words_rIcmp h))).bind fun _ _ => ?_
  refine (parseKind_post _ _ _).bind fun _ _ => ?_
  refine (parseValue_post _).bind fun _ _ => ?_
  refine (parseValue_post _).bind fun _ _ => ?_
  exact (parseSize_post _).bind fun _ _ => rfl

theorem parseSelect_post {instr : Text} (h : instr ∈ rSelect.lang) :
    StmtPost false (parseSelect instr) := by
  refine (parseReg_post (nextToken_mem (words_rSelect h))).bind fun _ _ => ?_
  refine (parseValue_post _).bind fun _ _ => ?_
  refine (parseValue_post _).bind fun _ _ => ?_
  exact (parseValue_post _).bind fun _ _ => rfl

theorem parseRead_post (instr : Text) : StmtPost false (parseRead instr) := by
  refine (parseAssign_post instr).bind fun ⟨_, _, _⟩ _ => ?_
  exact Post.ite (fun _ => rfl) fun _ => post_syntaxError _

theorem parseWrite_post (instr : Text) : StmtPost false (parseWrite instr) := by
  refine (parseAssign_post instr).bind fun ⟨_, _, _⟩ _ => ?_
  exact Post.ite (fun _ => (parseValue_post _).bind fun _ _ => rfl) fun _ => post_syntaxError _

theorem parseCall_post (instr : Text) : StmtPost false (parseCall instr) := by
  refine (parseAssign_post instr).bind fun ⟨_, _, _⟩ _ => ?_
  exact (Post.mapM parseValue_post _).bind fun _ _ => rfl

theorem parseAssert_post (instr : Text) : StmtPost false (parseAssert instr) := by
  refine (parseValue_post _).bind fun _ _ => ?_
  exact (parseValue_post _).bind fun _ _ => rfl

theorem parseRet_post (instr : Text) : StmtPost true (parseRet instr) := by
  unfold parseRet
  dsimp only
  split
  · exact (parseValue_post _).bind fun _ _ => rfl
  · exact rfl

theorem parseBrCond_post (instr : Text) : StmtPost true (parseBrCond instr) :=
  (parseValue_post _).bind fun _ _ => rfl

theorem parseCases_post (cond : Value) (bbMap : List (Word × Text)) (ss : List Text) :
    StmtPost true (parseCases cond bbMap ss) := by
  fun_induction parseCases cond bbMap ss with
  | case1 bbMap token1 token2 ss e h =>
    have he := parseConst_post token1
    rw [h] at he
    exact he
  | case2 => exact post_syntaxError _
  | case3 _ _ _ _ _ _ _ ih => exact ih
  | case4 => rfl
  | case5 => rfl

theorem parseSwitch_post (instr : Text) : StmtPost true (parseSwitch instr) :=
  (parseValue_post _).bind fun _ _ => parseCases_post _ _ _

theorem normalForms_post :
    ∀ form ∈ normalForms, ∀ instr ∈ form.1.lang, StmtPost false (form.2 instr) := by
  refine List.forall_mem_cons.mpr ⟨fun _ => parseMalloc_post, ?_⟩
  refine List.forall_mem_cons.mpr ⟨fun instr _ => parseFree_post instr, ?_⟩
  refine List.forall_mem_cons.mpr ⟨fun _ => parseLoad_post, ?_⟩
  refine List.forall_mem_cons.mpr ⟨fun instr _ => parseStore_post instr, ?_⟩
  refine List.forall_mem_cons.mpr ⟨fun _ _ => rfl, List.forall_mem_cons.mpr ⟨fun _ _ => rfl, ?_⟩⟩
  refine List.forall_mem_cons.mpr ⟨fun _ => parseBop_post, ?_⟩
  refine List.forall_mem_cons.mpr ⟨fun _ => parseIcmp_post, ?_⟩
  refine List.forall_mem_cons.mpr ⟨fun _ => parseSelect_post, ?_⟩
  refine List.forall_mem_cons.mpr ⟨fun instr _ => parseRead_post instr, ?_⟩
  refine List.forall_mem_cons.mpr ⟨fun instr _ => parseWrite_post instr, ?_⟩
  refine List.forall_mem_cons.mpr ⟨fun instr _ => parseCall_post instr, ?_⟩
  exact List.forall_mem_singleton.mpr fun instr _ => parseAssert_post instr

theorem terminatorForms_post :
    ∀ form ∈ terminatorForms, ∀ instr ∈ form.1.lang, StmtPost true (form.2 instr) := by
  refine List.forall_mem_cons.mpr ⟨fun instr _ => parseRet_post instr, ?_⟩
  refine List.forall_mem_cons.mpr ⟨fun instr _ => parseRet_post instr, ?_⟩
  refine List.forall_mem_cons.mpr ⟨fun _ _ => rfl, ?_⟩
  refine List.forall_mem_cons.mpr ⟨fun instr _ => parseBrCond_post instr, ?_⟩
  exact List.forall_mem_singleton.mpr fun instr _ => parseSwitch_post instr

/-- The line has one of the forms. -/
def HasForm (forms : List (Regex Char × (Text → Except ParseError Stmt))) (instr : Text) : Prop :=
  ∃ form ∈ forms, instr ∈ form.1.lang

theorem firstForm_post {forms : List (Regex Char × (Text → Except ParseError Stmt))}
    {terminator : Bool}
    (h : ∀ form ∈ forms, ∀ instr ∈ form.1.lang, StmtPost terminator (form.2 instr)) (instr : Text) :
    Post ParseError.Reported (fun o => (o = none ∧ ¬HasForm forms instr) ∨
      ∃ stmt, o = some stmt ∧ stmt.isTerminator = terminator ∧ HasForm forms instr)
      (firstForm forms instr) := by
  induction forms with
  | nil => exact Or.inl ⟨rfl, fun ⟨_, hmem, _⟩ => absurd hmem List.not_mem_nil⟩
  | cons form forms ih =>
    obtain ⟨r, f⟩ := form
    obtain ⟨hform, hforms⟩ := List.forall_mem_cons.mp h
    by_cases hr : instr ∈ r.lang
    · rw [firstForm_cons_of_mem hr]
      exact (hform instr hr).map fun stmt hstmt =>
        Or.inr ⟨stmt, rfl, hstmt, _, List.mem_cons_self, hr⟩
    · rw [firstForm_cons_of_not_mem hr]
      refine (ih hforms).weaken fun o ho => ?_
      rcases ho with ⟨rfl, hnot⟩ | ⟨stmt, rfl, hstmt, form, hmem, hlang⟩
      · refine Or.inl ⟨rfl, fun ⟨form, hmem, hlang⟩ => ?_⟩
        rcases List.mem_cons.mp hmem with rfl | hmem
        · exact hr hlang
        · exact hnot ⟨form, hmem, hlang⟩
      · exact Or.inr ⟨stmt, rfl, hstmt, form, List.mem_cons_of_mem _ hmem, hlang⟩

theorem parseNormalStmt_post (instr : Text) : Post ParseError.Reported
    (fun o => (o = none ∧ ¬HasForm normalForms instr) ∨
      ∃ stmt, o = some stmt ∧ stmt.isTerminator = false ∧ HasForm normalForms instr)
    (parseNormalStmt instr) := firstForm_post normalForms_post instr

theorem parseTerminator_post (instr : Text) : Post ParseError.Reported
    (fun o => (o = none ∧ ¬HasForm terminatorForms instr) ∨
      ∃ stmt, o = some stmt ∧ stmt.isTerminator = true ∧ HasForm terminatorForms instr)
    (parseTerminator instr) := firstForm_post terminatorForms_post instr

/-! ## Lines that are not -/

/-- The name in the line that starts a function. -/
def functionName (instr : Text) : Text := ((words isSep instr)[1]?).getD []

/-- The name in the header of a block. -/
def writtenName (instr : Text) : Text := (instr.dropWhile isSpace).takeWhile isNameChar

/-- The colon follows the name at once. -/
def plainHeader (instr : Text) : Bool :=
  ((instr.dropWhile isSpace).dropWhile isNameChar).head? = some ':'

theorem mem_digits {c : Char} (h : isDigit c = true) : c ∈ "0123456789".toList := by
  simp only [isDigit, Bool.and_eq_true, decide_eq_true_eq] at h
  have h0 : 48 ≤ c.toNat := h.1
  have h9 : c.toNat ≤ 57 := h.2
  have hall : ∀ n < 58, 48 ≤ n → Char.ofNat n ∈ "0123456789".toList := by decide
  have hc := hall c.toNat (Nat.lt_succ_of_le h9) h0
  rwa [Char.ofNat_toNat] at hc

theorem mem_tArgN {s : Text} : s ∈ tArgN.lang ↔ ∃ n : Fin 17, s = toString n := by
  constructor
  · intro h
    obtain ⟨r, hr, hs⟩ := mem_lang_oneOf.mp h
    rcases List.mem_cons.mp hr with rfl | hr
    · obtain ⟨c, hc, rfl⟩ := hs
      have hall : ("0123456789".toList.all fun c => ∃ n : Fin 17, [c] = toString n) = true := by decide
      exact of_decide_eq_true (List.all_eq_true.mp hall c (mem_digits hc))
    · rw [List.mem_singleton.mp hr] at hs
      obtain ⟨a, ha, t, ht, rfl⟩ := mem_seqs_cons.mp hs
      obtain ⟨c, hc, rfl⟩ := mem_seqs_singleton.mp ht
      rw [mem_keyword.mp ha]
      have hall : ("0123456".toList.all fun c => ∃ n : Fin 17, "1".toList ++ [c] = toString n) = true := by
        decide +kernel
      exact of_decide_eq_true (List.all_eq_true.mp hall c (of_decide_eq_true hc))
  · rintro ⟨n, rfl⟩
    rw [← isMatch_iff]
    revert n
    decide +kernel

/-- A number of arguments, with or without the colon. -/
theorem stoi_argN (n : Fin 17) :
    stoi (toString n) = some n ∧ stoi (toString n ++ ":".toList) = some n := by
  revert n
  decide +kernel

theorem isWord_argN (n : Fin 17) :
    IsWord isSep (toString n) ∧ IsWord isSep (toString n ++ ":".toList) := by
  revert n
  decide +kernel

/-- What `isSpace` holds of separates words, or is empty. -/
theorem words_blank_colon {w b : Text} (hw : IsWord isSep w) (hb : ∀ c ∈ b, isSpace c = true) :
    b = [] ∨ words isSep (w ++ (b ++ ":".toList)) = [w, ":".toList] := by
  cases b with
  | nil => exact Or.inl rfl
  | cons c b =>
    have hgap : IsGap isSep (c :: b) := ⟨List.cons_ne_nil _ _, fun d hd => isSep_of_isSpace (hb d hd)⟩
    rw [hw.words_append hgap.closedStart_append, hgap.words_append]
    exact Or.inr rfl

/-- The line that starts a function: its name, and the number of its arguments. -/
theorem words_rStartFunction {s : Text} (h : s ∈ rStartFunction.lang) : ∃ name ∈ tName.lang,
    ∃ w ws, words isSep s = "start".toList :: name :: w :: ws ∧ ∃ n : Fin 17, stoi w = some n := by
  obtain ⟨t, ht, hwords⟩ := words_of_mem_spaced h
  have hhead : Alternates isSep [keyword "start", tSpace, tName] [keyword "start", tName] :=
    alternates_keyword (by simp [keywords]) (.last wordRe_tName)
  obtain ⟨l, u, hu, heq, hl⟩ := hhead.words_tail (fun _ hu => closedStart_tSpace_cons hu) ht
  obtain ⟨x, l', hx, hl', rfl⟩ := wordsMatch_cons.mp hl
  obtain ⟨name, l'', hname, hl'', rfl⟩ := wordsMatch_cons.mp hl'
  rw [wordsMatch_nil.mp hl''] at heq
  rw [mem_keyword.mp hx] at heq
  obtain ⟨g, hg, v, hv, rfl⟩ := mem_seqs_cons.mp hu
  obtain ⟨a, ha, v', hv', rfl⟩ := mem_seqs_cons.mp hv
  obtain ⟨b, hb, c, hc, rfl⟩ := mem_seqs_cons.mp hv'
  obtain ⟨n, rfl⟩ := mem_tArgN.mp ha
  rw [mem_keyword.mp (mem_seqs_singleton.mp hc), (gapRe_tSpace g hg).words_append] at heq
  refine ⟨name, hname, ?_⟩
  rcases words_blank_colon (isWord_argN n).1 (mem_tESpace.mp hb) with rfl | hcolon
  · rw [List.nil_append, words_of_isWord (isWord_argN n).2] at heq
    exact ⟨_, [], hwords.trans heq, n, (stoi_argN n).2⟩
  · rw [hcolon] at heq
    exact ⟨_, _, hwords.trans heq, n, (stoi_argN n).1⟩

theorem words_rEndFunction {s : Text} (h : s ∈ rEndFunction.lang) :
    WordsMatch (words isSep s) [keyword "end", tName] :=
  words_line (alternates_keyword (by simp [keywords]) (.last wordRe_tName)) h

/-- What follows the name in a header does not go on with it. -/
theorem not_isNameChar_of_isSpace {c : Char} (h : isSpace c = true) : isNameChar c = false := by
  by_contra hc
  rw [Bool.not_eq_false] at hc
  have hsep := isSep_of_isNameChar hc
  rw [isSep_of_isSpace h] at hsep
  cases hsep

/-- The parts of a header: the name, and the blanks between the name and the colon. -/
theorem header_parts {s : Text} (h : s ∈ rBBStart.lang) : ∃ name ∈ tBBName.lang, ∃ g,
    (∀ c ∈ g, isSpace c = true) ∧ words isSep s = words isSep (name ++ (g ++ ":".toList)) ∧
      writtenName s = name ∧ (plainHeader s = true ↔ g = []) := by
  obtain ⟨a, u, b, ha, hu, hb, rfl⟩ := mem_spaced.mp h
  obtain ⟨name, hname, v, hv, rfl⟩ := mem_seqs_cons.mp hu
  obtain ⟨g, hg, c, hc, rfl⟩ := mem_seqs_cons.mp hv
  rw [mem_keyword.mp (mem_seqs_singleton.mp hc)]
  have hg := mem_tESpace.mp hg
  obtain ⟨t, ht, rfl⟩ := mem_tBBName.mp hname
  have hchars : ∀ c ∈ '.' :: t, isNameChar c = true :=
    List.forall_mem_cons.mpr ⟨by decide, (mem_tName.mp ht).2⟩
  have hdrop : (a ++ ('.' :: t ++ (g ++ ":".toList) ++ b)).dropWhile isSpace =
      '.' :: t ++ (g ++ ':' :: b) := by
    rw [List.dropWhile_append_of_pos ha, List.append_assoc, List.append_assoc]
    rfl
  refine ⟨_, hname, g, hg, ?_, ?_, ?_⟩
  · exact words_spaced (fun c hc => isSep_of_isSpace (ha c hc)) fun c hc => isSep_of_isSpace (hb c hc)
  · rw [writtenName, hdrop, List.takeWhile_append_of_pos hchars]
    cases g with
    | nil => simp [show isNameChar ':' = false by decide]
    | cons c g => simp [not_isNameChar_of_isSpace (hg c List.mem_cons_self)]
  · rw [plainHeader, hdrop, List.dropWhile_append_of_pos hchars]
    cases g with
    | nil => simp [show isNameChar ':' = false by decide]
    | cons c g =>
      have hc := hg c List.mem_cons_self
      have hne : c ≠ ':' := by
        rintro rfl
        exact absurd hc (by decide)
      simp [not_isNameChar_of_isSpace hc, hne]

theorem writtenName_mem {s : Text} (h : s ∈ rBBStart.lang) : writtenName s ∈ tBBName.lang := by
  obtain ⟨name, hname, g, -, -, hwritten, -⟩ := header_parts h
  rw [hwritten]
  exact hname

/-- The words of a header. -/
theorem words_rBBStart {s : Text} (h : s ∈ rBBStart.lang) : words isSep s =
    if plainHeader s then [writtenName s ++ ":".toList] else [writtenName s, ":".toList] := by
  obtain ⟨name, hname, g, hg, heq, hwritten, hplain⟩ := header_parts h
  have hword := wordRe_tBBName name hname
  rw [heq, hwritten]
  by_cases hnil : g = []
  · have hcolon : IsWord isSep (name ++ ":".toList) := by
      refine ⟨List.append_ne_nil_of_left_ne_nil hword.1 _, fun c hc => ?_⟩
      rcases List.mem_append.mp hc with hc | hc
      · exact hword.2 c hc
      · rw [List.mem_singleton.mp hc]
        decide
    rw [if_pos (hplain.mpr hnil), hnil, List.nil_append, words_of_isWord hcolon]
  · rw [if_neg fun hp => hnil (hplain.mp hp)]
    exact (words_blank_colon hword hg).resolve_left hnil

/-- `parse_bbname` returns the name, or cuts it short where the colon is apart. -/
theorem parseBBName_eq {s : Text} (h : s ∈ rBBStart.lang) :
    parseBBName s = if plainHeader s then writtenName s else (writtenName s).dropLast := by
  rw [parseBBName, stream_eq, words_rBBStart h]
  split_ifs
  · exact List.dropLast_concat
  · rfl

/-- The name that is registered is the one that is written just where the colon is not apart. -/
theorem parseBBName_eq_iff {s : Text} (h : s ∈ rBBStart.lang) :
    parseBBName s = writtenName s ↔ plainHeader s = true := by
  rw [parseBBName_eq h]
  split_ifs with hp
  · exact iff_of_true rfl hp
  · refine iff_of_false (fun heq => ?_) hp
    obtain ⟨t, -, hname⟩ := mem_tBBName.mp (writtenName_mem h)
    have hlen := congrArg List.length heq
    rw [hname, List.length_dropLast, List.length_cons] at hlen
    omega

/-! ## The first words tell the lines apart -/

/-- The commands of the statements. -/
def stmtKeywords : List String :=
  ["malloc", "free", "load", "store", "reset", "icmp", "select", "call", "assert_eq", "ret", "br",
    "switch"] ++ bopNames.map Prod.fst

theorem command_mem_stmtKeywords {q : Regex Char} (hq : q ∈ normalCommands ++ terminatorCommands)
    {w : Text} (hw : w ∈ q.lang) : ∃ k ∈ stmtKeywords, w = k.toList := by
  have hcases : q = tBop ∨ ∃ k ∈ stmtKeywords, q = keyword k := by
    revert q
    simp [normalCommands, terminatorCommands, stmtKeywords]
  rcases hcases with rfl | ⟨k, hk, rfl⟩
  · obtain ⟨r, hr, hw⟩ := mem_lang_oneOf.mp hw
    obtain ⟨k, hk, rfl⟩ := List.mem_map.mp hr
    exact ⟨k, List.mem_append_right _ hk, mem_keyword.mp hw⟩
  · exact ⟨k, hk, mem_keyword.mp hw⟩

/-- The command of a line that has one of the forms. -/
theorem command_of_hasForm {forms : List (Regex Char × (Text → Except ParseError Stmt))}
    {cmds : List (Regex Char)} (hforms : List.Forall₂ HasCommand forms cmds)
    (hcmds : ∀ q ∈ cmds, q ∈ normalCommands ++ terminatorCommands) {instr : Text}
    (h : HasForm forms instr) :
    ∃ k ∈ stmtKeywords, command (words isSep instr) = some k.toList := by
  obtain ⟨form, hmem, hlang⟩ := h
  induction hforms with
  | nil => cases hmem
  | @cons form' q forms cmds hform hforms ih =>
    obtain ⟨hq, hcmds⟩ := List.forall_mem_cons.mp hcmds
    rcases List.mem_cons.mp hmem with rfl | hmem
    · obtain ⟨w, hw, hcmd⟩ := hform instr hlang
      obtain ⟨k, hk, rfl⟩ := command_mem_stmtKeywords hq hw
      exact ⟨k, hk, hcmd⟩
    · exact ih hcmds hmem

/-- A line that is a statement. -/
def IsStmtLine (instr : Text) : Prop := HasForm normalForms instr ∨ HasForm terminatorForms instr

theorem command_of_isStmtLine {instr : Text} (h : IsStmtLine instr) :
    ∃ k ∈ stmtKeywords, command (words isSep instr) = some k.toList :=
  h.elim (command_of_hasForm normalForms_hasCommand fun _ => List.mem_append_left _)
    (command_of_hasForm terminatorForms_hasCommand fun _ => List.mem_append_right _)

/-- A first word that is no register is the command. -/
theorem command_of_words {instr w : Text} {ws : List Text} (h : words isSep instr = w :: ws)
    (hw : tReg.isMatch w = false) : command (words isSep instr) = some w := by
  rw [h]
  exact if_neg (by rw [hw]; exact Bool.false_ne_true)

theorem command_rStartFunction {instr : Text} (h : instr ∈ rStartFunction.lang) :
    command (words isSep instr) = some "start".toList := by
  obtain ⟨name, -, w, ws, heq, -⟩ := words_rStartFunction h
  exact command_of_words heq (by decide)

theorem command_rEndFunction {instr : Text} (h : instr ∈ rEndFunction.lang) :
    command (words isSep instr) = some "end".toList := by
  obtain ⟨w, l, hw, -, heq⟩ := wordsMatch_cons.mp (words_rEndFunction h)
  rw [mem_keyword.mp hw] at heq
  exact command_of_words heq (by decide)

theorem command_rBBStart {instr : Text} (h : instr ∈ rBBStart.lang) :
    ∃ w, command (words isSep instr) = some ('.' :: w) := by
  obtain ⟨t, -, hname⟩ := mem_tBBName.mp (writtenName_mem h)
  have hreg : ∀ w : Text, tReg.isMatch ('.' :: w) = false := by
    intro w
    refine isMatch_tReg_eq_false fun hmem => ?_
    obtain ⟨reg, hne, heq⟩ := mem_tReg.mp hmem
    cases reg with
    | r i => cases heq
    | a i => cases heq
    | sp => cases heq
    | none => exact hne rfl
  have hwords := words_rBBStart h
  rw [hname] at hwords
  split_ifs at hwords
  · exact ⟨_, command_of_words hwords (hreg _)⟩
  · exact ⟨_, command_of_words hwords (hreg _)⟩

theorem not_start_of_header {instr : Text} (h : instr ∈ rBBStart.lang) :
    instr ∉ rStartFunction.lang := by
  intro hs
  obtain ⟨w, hw⟩ := command_rBBStart h
  rw [command_rStartFunction hs] at hw
  cases hw

theorem not_start_of_end {instr : Text} (h : instr ∈ rEndFunction.lang) :
    instr ∉ rStartFunction.lang := by
  intro hs
  have hcmd := command_rEndFunction h
  rw [command_rStartFunction hs] at hcmd
  revert hcmd
  decide

theorem not_header_of_end {instr : Text} (h : instr ∈ rEndFunction.lang) :
    instr ∉ rBBStart.lang := by
  intro hs
  obtain ⟨w, hw⟩ := command_rBBStart hs
  rw [command_rEndFunction h] at hw
  cases hw

theorem not_start_of_stmt {instr : Text} (h : IsStmtLine instr) : instr ∉ rStartFunction.lang := by
  intro hs
  obtain ⟨k, hk, hcmd⟩ := command_of_isStmtLine h
  rw [command_rStartFunction hs] at hcmd
  have hall : ∀ k ∈ stmtKeywords, some "start".toList ≠ some k.toList := by decide
  exact hall k hk hcmd

theorem not_header_of_stmt {instr : Text} (h : IsStmtLine instr) : instr ∉ rBBStart.lang := by
  intro hs
  obtain ⟨k, hk, hcmd⟩ := command_of_isStmtLine h
  obtain ⟨w, hw⟩ := command_rBBStart hs
  rw [hw] at hcmd
  have hall : ∀ k ∈ stmtKeywords, k.toList.head? ≠ some '.' := by decide
  refine hall k hk ?_
  rw [← Option.some.inj hcmd]
  rfl

/-! ## What a line does -/

/-- What an accepted line does. -/
inductive Reads (line : ℕ) (instr : Text) (c : Parsing) : Parsing → Prop
  | start {n : ℕ} (hs : c.state = .psBegin ∨ c.state = .psEndFunction)
      (h : instr ∈ rStartFunction.lang) (hn : n ≤ 16)
      (hnew : ∀ g ∈ c.functions, g.fname ≠ functionName instr) :
      Reads line instr c { c with
        functions := ⟨functionName instr, n, [], []⟩ :: c.functions, state := .psStartFunction }
  | header {f : Function} {fs : List Function} (hs : c.state = .psStartFunction)
      (h : instr ∈ rBBStart.lang) (hf : c.functions = f :: fs) :
      Reads line instr c { c with
        currBB := parseBBName instr, functions := { f with firstBB := parseBBName instr } :: fs,
        state := .psStartBB }
  | first {f f' : Function} {fs : List Function} {stmt : Stmt} (hs : c.state = .psStartBB)
      (hf : c.functions = f :: fs) (hstmt : parseNormalStmt instr = .ok (some stmt))
      (hset : f.setBB c.currBB c.nodes.length = some f') :
      Reads line instr c { c with
        nodes := c.nodes ++ [⟨line, stmt, none⟩], functions := f' :: fs,
        prevStmt := c.nodes.length, state := .psNormal }
  | only {f : Function} {fs : List Function} {stmt : Stmt} (hs : c.state = .psStartBB)
      (hf : c.functions = f :: fs) (hnot : parseNormalStmt instr = .ok none)
      (hstmt : parseTerminator instr = .ok (some stmt)) :
      Reads line instr c { c with
        nodes := c.nodes ++ [⟨line, stmt, none⟩],
        functions := (f.setBB c.currBB c.nodes.length).getD f :: fs, state := .psEndBB }
  | next {stmt : Stmt} (hs : c.state = .psNormal) (hstmt : parseNormalStmt instr = .ok (some stmt)) :
      Reads line instr c { (c.create line stmt).setNext c.nodes.length with
        prevStmt := c.nodes.length, state := .psNormal }
  | last {stmt : Stmt} (hs : c.state = .psNormal) (hnot : parseNormalStmt instr = .ok none)
      (hstmt : parseTerminator instr = .ok (some stmt)) :
      Reads line instr c { (c.create line stmt).setNext c.nodes.length with state := .psEndBB }
  | block (hs : c.state = .psEndBB) (h : instr ∈ rBBStart.lang) :
      Reads line instr c { c with currBB := parseBBName instr, state := .psStartBB }
  | ending (hs : c.state = .psEndBB) (h : instr ∈ rEndFunction.lang) :
      Reads line instr c { c with state := .psEndFunction }

section

variable {c : Parsing} {line : ℕ} {instr : Text}

theorem parseStartFunction_eq (h : instr ∈ rStartFunction.lang) :
    ∃ n ≤ 16, parseStartFunction instr = .ok ⟨functionName instr, n, [], []⟩ := by
  obtain ⟨name, -, w, ws, heq, n, hn⟩ := words_rStartFunction h
  refine ⟨n, Nat.le_of_lt_succ n.isLt, ?_⟩
  simp only [parseStartFunction, functionName, stream_eq, heq, nextToken, hn]
  rfl

theorem startLine_post (hs : c.state = .psBegin ∨ c.state = .psEndFunction) :
    Post ParseError.Reported (Reads line instr c) (c.startLine instr) := by
  unfold Parsing.startLine
  refine Post.ite (fun h => ?_) fun _ => post_syntaxError _
  have h := (isMatch_iff _ _).mp h
  obtain ⟨n, hn, heq⟩ := parseStartFunction_eq h
  rw [heq]
  refine Post.ite (fun _ => post_syntaxError _) fun _ => ?_
  unfold setFunction
  cases hfind : c.functions.find? fun g => g.fname = functionName instr with
  | some g => exact post_syntaxError _
  | none =>
    refine Reads.start hs h hn fun g hg => ?_
    have hne := List.find?_eq_none.mp hfind g hg
    exact fun heq => hne (decide_eq_true heq)

theorem headerLine_post (hs : c.state = .psStartFunction) (hf : c.functions ≠ []) :
    Post ParseError.Reported (Reads line instr c) (c.headerLine instr) := by
  obtain ⟨f, fs, hf⟩ := List.exists_cons_of_ne_nil hf
  unfold Parsing.headerLine
  refine Post.ite (fun h => ?_) fun _ => post_syntaxError _
  rw [hf]
  exact Reads.header hs ((isMatch_iff _ _).mp h) hf

theorem firstLine_post (hs : c.state = .psStartBB) (hf : c.functions ≠ []) :
    Post ParseError.Reported (Reads line instr c) (c.firstLine line instr) := by
  obtain ⟨f, fs, hf⟩ := List.exists_cons_of_ne_nil hf
  unfold Parsing.firstLine
  rw [hf]
  have hnormal := parseNormalStmt_post instr
  cases hn : parseNormalStmt instr with
  | error e =>
    rw [hn] at hnormal
    exact hnormal
  | ok o =>
    cases o with
    | some stmt =>
      dsimp only
      cases hset : f.setBB c.currBB c.nodes.length with
      | some f' => exact Reads.first hs hf hn hset
      | none => exact post_syntaxError _
    | none =>
      have hterm := parseTerminator_post instr
      cases ht : parseTerminator instr with
      | error e =>
        rw [ht] at hterm
        exact hterm
      | ok o =>
        cases o with
        | some stmt => exact Reads.only hs hf hn ht
        | none => exact post_syntaxError _

theorem nextLine_post (hs : c.state = .psNormal) :
    Post ParseError.Reported (Reads line instr c) (c.nextLine line instr) := by
  unfold Parsing.nextLine
  have hnormal := parseNormalStmt_post instr
  cases hn : parseNormalStmt instr with
  | error e =>
    rw [hn] at hnormal
    exact hnormal
  | ok o =>
    cases o with
    | some stmt => exact Reads.next hs hn
    | none =>
      have hterm := parseTerminator_post instr
      show Post _ _ (parseTerminator instr >>= _)
      cases ht : parseTerminator instr with
      | error e =>
        rw [ht] at hterm
        exact hterm
      | ok o =>
        cases o with
        | some stmt => exact Reads.last hs hn ht
        | none => exact post_syntaxError _

theorem blockLine_post (hs : c.state = .psEndBB) (hf : c.functions ≠ []) :
    Post ParseError.Reported (Reads line instr c) (c.blockLine instr) := by
  obtain ⟨f, fs, hf⟩ := List.exists_cons_of_ne_nil hf
  unfold Parsing.blockLine
  refine Post.ite (fun h => Reads.block hs ((isMatch_iff _ _).mp h)) fun _ => ?_
  refine Post.ite (fun h => ?_) fun _ => post_syntaxError _
  have hread : Reads line instr c { c with state := .psEndFunction } :=
    Reads.ending hs ((isMatch_iff _ _).mp h)
  rw [hf] at hread ⊢
  exact Post.ite (fun _ => hread) fun _ => post_syntaxError _

/-- What an accepted line does; the others are reported. -/
theorem parseLine_post (hf : c.state = .psBegin ∨ c.functions ≠ []) :
    Post ParseError.Reported (Reads line instr c) (c.parseLine (line, instr)) := by
  unfold Parsing.parseLine
  cases hs : c.state with
  | psBegin => exact startLine_post (Or.inl hs)
  | psEndFunction => exact startLine_post (Or.inr hs)
  | psStartFunction =>
    rw [hs] at hf
    exact headerLine_post hs (hf.resolve_left ParserState.noConfusion)
  | psStartBB =>
    rw [hs] at hf
    exact firstLine_post hs (hf.resolve_left ParserState.noConfusion)
  | psNormal => exact nextLine_post hs
  | psEndBB =>
    rw [hs] at hf
    exact blockLine_post hs (hf.resolve_left ParserState.noConfusion)

end

/-- What every line keeps holds of an accepted text. `g` follows the lines. -/
theorem parse_post {γ : Type} {g : γ → ℕ × Text → γ} {R : List (ℕ × Text) → Parsing → γ → Prop}
    {post : Program → Prop} {input : Text} {o : γ}
    (hbegun : ∀ {l c o}, R l c o → c.state = .psBegin ∨ c.functions ≠ [])
    (hread : ∀ {l c c' o line instr}, R ((line, instr) :: l) c o → Reads line instr c c' →
      R l c' (g o (line, instr))) (hinit : R (significant input) .init o)
    (hpost : ∀ {c}, R [] c ((significant input).foldl g o) → c.state = .psEndFunction →
      post ⟨c.nodes, c.functions⟩) : Post ParseError.Reported post (parse input) := by
  unfold parse
  have hfold := Post.foldlM (f := Parsing.parseLine) (g := g) (R := R)
    (fun c o line rest h => (parseLine_post (hbegun h)).weaken fun c' h' => hread h h') hinit
  refine hfold.bind fun c h => ?_
  refine Post.ite (fun _ => post_syntaxError _) fun hstate => ?_
  have hdone := hpost h (not_not.mp hstate)
  dsimp only
  split
  · exact post_syntaxError _
  · exact Post.ite (fun _ => post_syntaxError _) fun _ => hdone

end SwppCompiler.Interp
