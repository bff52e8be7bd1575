import ContentSecurity.Proofs.Directive.Clause
import ContentSecurity.Proofs.Reading
/-!
# The clauses of a header

`serialized-policy` reads blanks, semicolons and directives in an order that hides a simple
description: cut the header at every semicolon and take the blanks off each piece; the first piece
has to be a clause, and every other one is a clause or empty.  This module proves that the two
agree, and that the tree has one directive for each clause, in order.
-/

namespace ContentSecurity

open Text Grammar
open String (utf8Len)

namespace Policy

open Directive

/-- The pieces between the semicolons, without the blanks at their ends. -/
def segments (text : List Char) : List (List Char) :=
  (text.splitOn ';').map (trimmed isBlank)

/-- The pieces of a header. -/
def clauses (header : String) : List (List Char) :=
  segments header.toList

/-- A clause in front, and behind it only clauses and empty pieces. -/
def IsOutline : List (List Char) → Prop
  | [] => False
  | first :: others => IsClause first ∧ ∀ segment ∈ others, segment = [] ∨ IsClause segment

theorem IsOutline.eq_nil_or_isClause {pieces : List (List Char)} {piece : List Char}
    (h : IsOutline pieces) (hmem : piece ∈ pieces) : piece = [] ∨ IsClause piece := by
  cases pieces with
  | nil => cases hmem
  | cons first others =>
    rcases List.mem_cons.mp hmem with rfl | hmem
    · exact Or.inr h.1
    · exact h.2 piece hmem

variable {text front back head tail rest : List Char} {header : String} {trees : List Tree}

/-! ### Cutting at semicolons -/

theorem segments_of_forall (h : ∀ c ∈ text, c ≠ ';') : segments text = [trimmed isBlank text] := by
  have hsplit : text.splitOn ';' = [text] := by
    rw [List.splitOn_eq_splitOnP]
    exact List.splitOnP_eq_singleton fun c hc => by simpa using h c hc
  rw [segments, hsplit, List.map_singleton]

theorem segments_append_cons (h : ∀ c ∈ text, c ≠ ';') :
    segments (text ++ ';' :: rest) = trimmed isBlank text :: segments rest := by
  have hsplit : (text ++ ';' :: rest).splitOn ';' = text :: rest.splitOn ';' := by
    rw [List.splitOn_eq_splitOnP, List.splitOn_eq_splitOnP]
    exact List.splitOnP_append_cons_of_forall_mem (fun c hc => by simpa using h c hc) ';' (by simp)
      rest
  rw [segments, hsplit, List.map_cons, segments]

theorem intercalate_cons (piece : List Char) (pieces : List (List Char)) :
    [';'].intercalate (piece :: pieces) = piece ++ pieces.flatMap (';' :: ·) := by
  induction pieces generalizing piece with
  | nil => simp
  | cons next pieces ih => rw [List.intercalate_cons_cons, ih]; simp

theorem ne_semicolon_of_visible (h : ∀ c ∈ text, isBlank c ∨ isValueChar c) :
    ∀ c ∈ text, c ≠ ';' := by
  intro c hc
  rcases h c hc with hblank | hvisible
  · exact ne_semicolon_of_isBlank hblank
  · exact ne_semicolon_of_isValueChar hvisible

theorem ne_nil_of_isClause (h : IsClause text) : text ≠ [] := by
  rcases h with ⟨name, tail, rfl, hne, -⟩
  simp [hne]

/-! ### What is read has an outline -/

/-- Blanks, a semicolon, and possibly blanks and a directive. -/
def further : Phrase :=
  .all [.text .blanks, .text (.literal ";"),
    .opt (.seq (.text .blanks) .serializedDirective)]

/-- The nodes cover and give the clauses among the pieces, each of which is a clause or empty. -/
def Matched (header : String) (pieces : List (List Char)) (nodes : List Tree) : Prop :=
  (∀ piece ∈ pieces, piece = [] ∨ IsClause piece) ∧
    List.Forall₂ (Covers header) (pieces.filter (!·.isEmpty)) nodes ∧
    List.Forall₂ (Gives header) (pieces.filter (!·.isEmpty)) nodes

theorem matched_nil : Matched header [] [] :=
  ⟨by simp, .nil, .nil⟩

theorem Matched.cons_nil {pieces : List (List Char)} (h : Matched header pieces trees) :
    Matched header ([] :: pieces) trees := by
  rcases h with ⟨hpieces, hcovers, hgives⟩
  exact ⟨by simpa using hpieces, by simpa using hcovers, by simpa using hgives⟩

theorem Matched.cons {pieces : List (List Char)} {node : Tree} (h : Matched header pieces trees)
    (hclause : IsClause text) (hcovers : Covers header text node)
    (hgives : Gives header text node) : Matched header (text :: pieces) (node :: trees) := by
  rcases h with ⟨hpieces, hcovered, hall⟩
  refine ⟨?_, ?_, ?_⟩
  · intro piece hpiece
    rcases List.mem_cons.mp hpiece with rfl | hpiece
    · exact Or.inr hclause
    · exact hpieces piece hpiece
  · simpa [ne_nil_of_isClause hclause] using List.Forall₂.cons hcovers hcovered
  · simpa [ne_nil_of_isClause hclause] using List.Forall₂.cons hgives hall

/-- Each repetition opens a piece.  The induction puts in front what the last piece already
holds, and behind everything the blanks at the end. -/
theorem matched_of_repeats {offset : Nat}
    (h : Repeats further.Derives offset text back trees)
    (hheader : header.toList = front ++ (text ++ back)) (hoffset : offset = utf8Len front)
    (hhead : ∀ c ∈ head, c ≠ ';') (htail : ∀ c ∈ tail, isBlank c) :
    ∃ pieces, segments (head ++ (text ++ tail)) = trimmed isBlank head :: pieces ∧
      Matched header pieces trees := by
  induction h generalizing front head with
  | nil =>
    refine ⟨[], ?_, matched_nil⟩
    have hall : ∀ c ∈ head ++ tail, c ≠ ';' := by
      intro c hc
      rcases List.mem_append.mp hc with hc | hc
      · exact hhead c hc
      · exact ne_semicolon_of_isBlank (htail c hc)
    rw [List.nil_append, segments_of_forall hall, trimmed_append_right htail]
  | @cons offset text others back trees siblings first repetition ih =>
    subst hoffset
    obtain ⟨gap, _, _, _, ⟨hgap, rfl⟩, ⟨sign, piece, _, _, ⟨hsign, rfl⟩, hpiece, rfl, rfl⟩, rfl,
      rfl⟩ := first
    obtain rfl := Lexeme.mem_language_literal.mp hsign
    have hblank : ∀ c ∈ gap, isBlank c := Lexeme.mem_language_star_one.mp hgap
    have hcut : ∀ c ∈ head ++ gap, c ≠ ';' := by
      intro c hc
      rcases List.mem_append.mp hc with hc | hc
      · exact hhead c hc
      · exact ne_semicolon_of_isBlank (hblank c hc)
    -- the rest of the repetition starts with the piece that this semicolon opens
    have hplace : header.toList = front ++ (gap ++ (";".toList ++ piece)) ++ (others ++ back) := by
      rw [hheader]
      simp
    have hflat : head ++ (gap ++ (";".toList ++ piece) ++ others ++ tail) =
        head ++ gap ++ ';' :: (piece ++ (others ++ tail)) := by
      simp
    rw [hflat, segments_append_cons hcut, trimmed_append_right hblank]
    rcases Phrase.derives_opt.mp hpiece with
      ⟨before, clause, _, _, ⟨hbefore, rfl⟩, hclause, rfl, rfl⟩ | ⟨rfl, rfl⟩
    · have hlead : ∀ c ∈ before, isBlank c := Lexeme.mem_language_star_one.mp hbefore
      have hclausePlace : header.toList =
          front ++ gap ++ ";".toList ++ before ++ (clause ++ (others ++ back)) := by
        rw [hheader]
        simp
      simp only [← String.utf8Len_append] at hclause
      obtain ⟨hisClause, hbare, node, rfl, hcovers, hgives⟩ := gives_of_derives hclause hclausePlace
      have hall : ∀ c ∈ before ++ clause, c ≠ ';' := by
        intro c hc
        rcases List.mem_append.mp hc with hc | hc
        · exact ne_semicolon_of_isBlank (hlead c hc)
        · exact ne_semicolon_of_visible hisClause.visible c hc
      obtain ⟨pieces, hpieces, hmatched⟩ := ih hplace (by simp) hall
      refine ⟨clause :: pieces, ?_, hmatched.cons hisClause hcovers hgives⟩
      rw [hpieces, trimmed_append_left hlead, trimmed_of_bare hbare]
    · have hnil : trimmed isBlank [] = [] := trimmed_of_forall (by simp)
      have hempty : ∀ c ∈ ([] : List Char), c ≠ ';' := by simp
      obtain ⟨pieces, hpieces, hmatched⟩ := ih hplace (by simp) hempty
      rw [hnil] at hpieces
      exact ⟨[] :: pieces, by rw [hpieces], hmatched.cons_nil⟩

/-- A derivation of a policy takes the whole header, and its tree has a directive for each
clause. -/
theorem matched_of_derives (h : Phrase.serializedPolicy.Derives 0 text rest trees)
    (hheader : header.toList = text ++ rest) :
    IsOutline (clauses header) ∧ ∃ tree, trees = [tree] ∧
      Matched header (clauses header) (tree.search [.serializedDirective] 2) := by
  obtain ⟨_, ⟨before, _, _, _, ⟨hbefore, rfl⟩, ⟨clause, _, _, _, hclause,
    ⟨middle, _, siblings, _, hmiddle, ⟨tail, _, _, _, ⟨htail, rfl⟩, ⟨rfl, rfl, rfl⟩, rfl, rfl⟩,
    rfl, rfl⟩, rfl, rfl⟩, rfl, rfl⟩, rfl⟩ := h
  have hlead : ∀ c ∈ before, isBlank c := Lexeme.mem_language_star_one.mp hbefore
  have hend : ∀ c ∈ tail, isBlank c := Lexeme.mem_language_star_one.mp htail
  have hplace : header.toList = before ++ (clause ++ (middle ++ tail)) := by
    rw [hheader]
    simp
  simp only [List.append_nil, Nat.zero_add] at hclause hmiddle
  obtain ⟨hisClause, hbare, node, rfl, hcovers, hgives⟩ := gives_of_derives hclause hplace
  have hhead : ∀ c ∈ before ++ clause, c ≠ ';' := by
    intro c hc
    rcases List.mem_append.mp hc with hc | hc
    · exact ne_semicolon_of_isBlank (hlead c hc)
    · exact ne_semicolon_of_visible hisClause.visible c hc
  have hmiddlePlace : header.toList = before ++ clause ++ (middle ++ tail) := by
    rw [hplace, List.append_assoc]
  obtain ⟨pieces, hpieces, hmatched⟩ :=
    matched_of_repeats hmiddle hmiddlePlace (String.utf8Len_append ..).symm hhead hend
  have hclauses : clauses header = clause :: pieces := by
    rw [clauses, hmiddlePlace, hpieces, trimmed_append_left hlead, trimmed_of_bare hbare]
  have hall := hmatched.cons hisClause hcovers hgives
  rw [hclauses]
  refine ⟨⟨hisClause, hmatched.1⟩, _, rfl, ?_⟩
  have hrules : ∀ tree ∈ [node] ++ siblings, tree.rule ∈ [Rule.serializedDirective] := by
    intro tree htree
    obtain ⟨_, -, hnode⟩ := exists_of_forall₂ hall.2.1 htree
    simpa using hnode.rule
  rw [Tree.search_mk (by decide), List.nil_append, List.nil_append, ← List.append_assoc,
    Tree.searchAll_concat hrules (by simp) rfl]
  exact hall

/-! ### What has an outline is read -/

theorem stops_flatMap {accepts : Char → Bool} (h : accepts ';' = false)
    (pieces : List (List Char)) : Stops accepts (pieces.flatMap (';' :: ·)) := by
  cases pieces with
  | nil => exact stops_nil
  | cons piece pieces => exact stops_cons.mpr h

theorem stops_dropWhile_flatMap (hhead : ∀ c ∈ head, isBlank c) (pieces : List (List Char)) :
    Stops isValueChar ((head ++ pieces.flatMap (';' :: ·)).dropWhile isBlank) := by
  rw [dropWhile_append_of_stops hhead (stops_flatMap (by decide) pieces)]
  exact stops_flatMap (by decide) pieces

theorem fails_directive (pieces : List (List Char)) :
    Phrase.serializedDirective.Fails (pieces.flatMap (';' :: ·)) := by
  have hname : Lexeme.directiveName.Fails (pieces.flatMap (';' :: ·)) :=
    (Lexeme.fails_one (stops_flatMap (by decide) pieces)).plus
  exact (Phrase.fails_token hname).seq_left.node

/-- The repetition takes everything up to the blanks at the end.  Blanks behind a piece are left
to the next repetition, so the induction starts with those of the piece before. -/
theorem takes_star_further {pieces : List (List Char)}
    (h : ∀ piece ∈ pieces, trimmed isBlank piece = [] ∨ IsClause (trimmed isBlank piece))
    (hhead : ∀ c ∈ head, isBlank c) :
    ∃ taken tail, head ++ pieces.flatMap (';' :: ·) = taken ++ tail ∧ (∀ c ∈ tail, isBlank c) ∧
      (Phrase.star further).Takes taken tail := by
  induction pieces generalizing head with
  | nil =>
    refine ⟨[], head, by simp, hhead, Phrase.takes_star_nil ?_⟩
    have hsign : (Lexeme.literal ";").Fails [] := Lexeme.fails_literal (by simp)
    rw [← List.append_nil head]
    exact (Phrase.fails_text hsign).seq_left.seq_right
      (Phrase.takes_text (Lexeme.takes_blanks hhead stops_nil))
  | cons piece pieces ih =>
    have htail : ∀ piece ∈ pieces,
        trimmed isBlank piece = [] ∨ IsClause (trimmed isBlank piece) := by
      intro p hp
      exact h p (List.mem_cons_of_mem _ hp)
    obtain ⟨before, after, hpiece, hbefore, hafter⟩ := exists_trimmed isBlank piece
    -- the repetition goes on behind what this piece adds to the semicolon
    have hstep : ∀ added left, piece = added ++ left → (∀ c ∈ left, isBlank c) →
        (Phrase.opt (.seq (.text .blanks) .serializedDirective)).Takes added
          (left ++ pieces.flatMap (';' :: ·)) →
        ∃ taken tail, head ++ (piece :: pieces).flatMap (';' :: ·) = taken ++ tail ∧
          (∀ c ∈ tail, isBlank c) ∧ (Phrase.star further).Takes taken tail := by
      rintro added left rfl hleft hopt
      obtain ⟨taken, tail, heq, hblank, htake⟩ := ih htail hleft
      rw [heq] at hopt
      have hsign : (Phrase.text (.literal ";")).Takes [';'] (added ++ (taken ++ tail)) :=
        Phrase.takes_literal ";" _
      have hgap : (Phrase.text .blanks).Takes head ([';'] ++ added ++ (taken ++ tail)) :=
        Phrase.takes_text (Lexeme.takes_blanks hhead (stops_cons.mpr (by decide)))
      have hfurther : further.Takes (head ++ ([';'] ++ added)) (taken ++ tail) :=
        hgap.seq (hsign.seq hopt)
      refine ⟨head ++ ([';'] ++ added) ++ taken, tail, ?_, hblank,
        hfurther.star_cons (by simp) htake⟩
      rw [List.append_assoc, ← heq]
      simp
    rcases h piece (by simp) with hnil | hclause
    · -- an empty piece: the blanks are read in vain and stay
      rw [hnil, List.nil_append] at hpiece
      have hall : ∀ c ∈ piece, isBlank c := by
        intro c hc
        rw [hpiece] at hc
        rcases List.mem_append.mp hc with hc | hc
        · exact hbefore c hc
        · exact hafter c hc
      refine hstep [] piece rfl hall (Phrase.takes_opt_nil ?_)
      exact (fails_directive pieces).seq_right
        (Phrase.takes_text (Lexeme.takes_blanks hall (stops_flatMap (by decide) pieces)))
    · have hbare : Bare isBlank (trimmed isBlank piece) := bare_trimmed isBlank piece
      have hne := ne_nil_of_isClause hclause
      have hread := takes_serializedDirective hclause hbare (stops_dropWhile_flatMap hafter pieces)
      have hblanks : (Phrase.text .blanks).Takes before
          (trimmed isBlank piece ++ (after ++ pieces.flatMap (';' :: ·))) :=
        Phrase.takes_text (Lexeme.takes_blanks hbefore (hbare.1.append_left hne))
      exact hstep (before ++ trimmed isBlank piece) after (by rw [List.append_assoc, ← hpiece])
        hafter (hblanks.seq hread).opt

theorem takes_serializedPolicy (h : IsOutline (segments text)) :
    Phrase.serializedPolicy.Takes text [] := by
  have hjoin : [';'].intercalate (text.splitOn ';') = text := List.intercalate_splitOn ';'
  rw [segments] at h
  cases hsplit : text.splitOn ';' with
  | nil => simp [hsplit, IsOutline] at h
  | cons piece pieces =>
    rw [hsplit, List.map_cons] at h
    rcases h with ⟨hclause, hpieces⟩
    rw [hsplit, intercalate_cons] at hjoin
    obtain ⟨before, after, hpiece, hbefore, hafter⟩ := exists_trimmed isBlank piece
    have hbare : Bare isBlank (trimmed isBlank piece) := bare_trimmed isBlank piece
    have hne := ne_nil_of_isClause hclause
    have hread := takes_serializedDirective hclause hbare (stops_dropWhile_flatMap hafter pieces)
    obtain ⟨taken, tail, heq, htail, htake⟩ :=
      takes_star_further (fun p hp => hpieces _ (List.mem_map_of_mem hp)) hafter
    have htext : text = before ++ (trimmed isBlank piece ++ (taken ++ tail)) := by
      rw [← hjoin, ← heq]
      conv_lhs => rw [hpiece]
      simp
    have hlead : (Phrase.text .blanks).Takes before
        (trimmed isBlank piece ++ (taken ++ tail) ++ []) :=
      Phrase.takes_text (Lexeme.takes_blanks hbefore
        ((hbare.1.append_left hne).append_left (by simp [hne])))
    have hend : (Phrase.text .blanks).Takes tail [] :=
      Phrase.takes_text (Lexeme.takes_blanks htail stops_nil)
    rw [heq] at hread
    rw [htext]
    rw [← List.append_nil (taken ++ tail)] at hread
    rw [← List.append_nil tail] at htake
    exact (hlead.seq (hread.seq (htake.seq hend.seq_finish))).node

/-! ### The outline of a policy -/

theorem matched_of_trees (h : Rule.serializedPolicy.trees header = .ok trees) :
    IsOutline (clauses header) ∧ ∃ tree, trees = [tree] ∧
      Matched header (clauses header) (tree.search [.serializedDirective] 2) := by
  obtain ⟨taken, rest, hheader, hderives⟩ := Rule.exists_derives_of_trees h
  exact matched_of_derives hderives hheader

theorem exists_trees_of_outline (h : IsOutline (clauses header)) :
    ∃ trees, Rule.serializedPolicy.trees header = .ok trees :=
  Rule.exists_trees_of_takes (takes_serializedPolicy h)

/-- **A header is read as a policy if and only if it has the outline of one**, and then the single
tree has one directive for each clause, in order, with its name and its value. -/
theorem serializedPolicy_reads_clauses (header : String) :
    ((∃ trees, Rule.serializedPolicy.trees header = .ok trees) ↔ IsOutline (clauses header)) ∧
      ∀ trees, Rule.serializedPolicy.trees header = .ok trees →
        ∃ tree, trees = [tree] ∧
          List.Forall₂ (Gives header) ((clauses header).filter (!·.isEmpty))
            (tree.search [.serializedDirective] 2) := by
  constructor
  · constructor
    · rintro ⟨trees, htrees⟩
      exact (matched_of_trees htrees).1
    · exact exists_trees_of_outline
  · intro trees htrees
    obtain ⟨-, tree, hsingle, -, -, hgives⟩ := matched_of_trees htrees
    exact ⟨tree, hsingle, hgives⟩

end Policy

end ContentSecurity
