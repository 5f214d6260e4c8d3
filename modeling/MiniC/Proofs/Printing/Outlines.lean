import MiniC.Text.Outline

/-! # Reading outlines

An outline determines its lines, as a line feed ends each of them and the blanks at its start are
its depth.  The lines of a tree determine the tree: what stands below a node are the lines after it
that are deeper.
-/
namespace MiniC
set_option autoImplicit false

namespace Line

/-- A text that can be the text of a line: it is on one line and starts with no blank. -/
structure Fits (text : String) : Prop where
  oneLine : '\n' ∉ text.toList
  flush : text.toList.head? ≠ some ' '

/-- The line with the given characters. -/
def read (cs : List Char) : Line :=
  let blanks := cs.takeWhile (· == ' ')
  ⟨blanks.length / 2, String.ofList (cs.drop blanks.length)⟩

theorem read_indented {text : String} (h : Fits text) (depth : Nat) :
    read (List.replicate (2 * depth) ' ' ++ text.toList) = ⟨depth, text⟩ := by
  have hBlanks : (List.replicate (2 * depth) ' ' ++ text.toList).takeWhile (· == ' ') =
      List.replicate (2 * depth) ' ' := by
    rw [List.takeWhile_append_of_pos (by simp)]
    cases hText : text.toList with
    | nil => simp
    | cons c cs =>
      have hc : c ≠ ' ' := by
        rintro rfl
        exact h.flush (by rw [hText]; rfl)
      simp [hc]
  simp [read, hBlanks]

end Line

/-- The lines of an outline. -/
def readLines (text : String) : List Line :=
  ((text.toList.splitOn '\n').dropLast).map Line.read

theorem splitOn_renderLines {lines : List Line} (h : ∀ l ∈ lines, Line.Fits l.text) :
    (renderLines lines).toList.splitOn '\n' =
      lines.map (fun l => List.replicate (2 * l.depth) ' ' ++ l.text.toList) ++ [[]] := by
  induction lines with
  | nil => rfl
  | cons l lines ih =>
    obtain ⟨hLine, hLines⟩ := List.forall_mem_cons.mp h
    have hText : (renderLines (l :: lines)).toList =
        (List.replicate (2 * l.depth) ' ' ++ l.text.toList) ++ '\n' ::
          (renderLines lines).toList := by
      simp [renderLines, Line.render]
    have hOneLine : '\n' ∉ List.replicate (2 * l.depth) ' ' ++ l.text.toList := by
      simp [hLine.oneLine]
    rw [hText, List.splitOn_append_cons_self_of_not_mem hOneLine, ih hLines]
    rfl

theorem readLines_renderLines {lines : List Line} (h : ∀ l ∈ lines, Line.Fits l.text) :
    readLines (renderLines lines) = lines := by
  rw [readLines, splitOn_renderLines h, List.dropLast_concat, List.map_map]
  refine (List.map_congr_left fun l hl => ?_).trans (List.map_id lines)
  exact Line.read_indented (h l hl) l.depth

/-- A text with others below it. -/
structure Node where
  text : String
  children : List Node

namespace Node

mutual

def lines (depth : Nat) : Node → List Line
  | mk text children => ⟨depth, text⟩ :: linesAll (depth + 1) children

def linesAll (depth : Nat) : List Node → List Line
  | [] => []
  | n :: ns => n.lines depth ++ linesAll depth ns

end

mutual

/-- The texts of all lines fit. -/
def Fits : Node → Prop
  | mk text children => Line.Fits text ∧ FitsAll children

def FitsAll : List Node → Prop
  | [] => True
  | n :: ns => n.Fits ∧ FitsAll ns

end

theorem fitsAll_iff {ns : List Node} : FitsAll ns ↔ ∀ n ∈ ns, n.Fits := by
  induction ns with
  | nil => simp [FitsAll]
  | cons n ns ih => rw [FitsAll, ih, List.forall_mem_cons]

/-- Puts what is deeper than a line below it. -/
def attach (l : Line) (forest : List (Nat × Node)) : List (Nat × Node) :=
  let deeper := forest.takeWhile fun t => l.depth < t.1
  (l.depth, mk l.text (deeper.map Prod.snd)) :: forest.drop deeper.length

/-- The trees that lines stand for, with their depths. -/
def ofLines (lines : List Line) : List (Nat × Node) := lines.foldr attach []

mutual

theorem ofLines_lines (n : Node) (depth : Nat) {rest : List Line}
    (h : ∀ t ∈ (ofLines rest).head?, t.1 ≤ depth) :
    ofLines (n.lines depth ++ rest) = (depth, n) :: ofLines rest := by
  obtain ⟨text, children⟩ := n
  have hHead : ∀ t ∈ (ofLines rest).head?, t.1 ≤ depth + 1 := fun t ht =>
    Nat.le_succ_of_le (h t ht)
  have hChildren := ofLines_linesAll children (depth + 1) hHead
  have hDeeper : (children.map (Prod.mk (depth + 1)) ++ ofLines rest).takeWhile
      (fun t => decide (depth < t.1)) = children.map (Prod.mk (depth + 1)) := by
    rw [List.takeWhile_append_of_pos (by simp)]
    cases hRest : ofLines rest with
    | nil => simp
    | cons t ts =>
      have hLow : t.1 ≤ depth := h t (by simp [hRest])
      simp [Nat.not_lt.mpr hLow]
  have hLines : ofLines ((mk text children).lines depth ++ rest) =
      attach ⟨depth, text⟩ (ofLines (linesAll (depth + 1) children ++ rest)) := by
    rw [lines]
    rfl
  rw [hLines, hChildren, attach, hDeeper]
  simp [Function.comp_def]

theorem ofLines_linesAll (ns : List Node) (depth : Nat) {rest : List Line}
    (h : ∀ t ∈ (ofLines rest).head?, t.1 ≤ depth) :
    ofLines (linesAll depth ns ++ rest) = ns.map (Prod.mk depth) ++ ofLines rest := by
  cases ns with
  | nil => rfl
  | cons n ns =>
    have hRest := ofLines_linesAll ns depth h
    have hHead : ∀ t ∈ (ofLines (linesAll depth ns ++ rest)).head?, t.1 ≤ depth := by
      rw [hRest]
      cases ns with
      | nil => exact h
      | cons m ms =>
        rintro _ ⟨⟩
        exact Nat.le_refl depth
    rw [linesAll, List.append_assoc, ofLines_lines n depth hHead, hRest]
    rfl

end

theorem linesAll_inj {depth : Nat} {ns ms : List Node}
    (h : linesAll depth ns = linesAll depth ms) : ns = ms := by
  have hRead (ns : List Node) : ofLines (linesAll depth ns) = ns.map (Prod.mk depth) := by
    have hNone : ∀ t ∈ (ofLines []).head?, t.1 ≤ depth := by simp [ofLines]
    have hAll := ofLines_linesAll ns depth hNone
    simpa [ofLines] using hAll
  have hBoth := congrArg ofLines h
  rw [hRead, hRead] at hBoth
  simpa [Function.comp_def] using congrArg (List.map Prod.snd) hBoth

mutual

theorem fits_of_mem_lines (n : Node) (hFits : n.Fits) (depth : Nat) :
    ∀ l ∈ n.lines depth, Line.Fits l.text := by
  obtain ⟨text, children⟩ := n
  rw [lines, List.forall_mem_cons]
  exact ⟨hFits.1, fits_of_mem_linesAll children hFits.2 (depth + 1)⟩

theorem fits_of_mem_linesAll (ns : List Node) (hFits : FitsAll ns) (depth : Nat) :
    ∀ l ∈ linesAll depth ns, Line.Fits l.text := by
  cases ns with
  | nil => simp [linesAll]
  | cons n ns =>
    rw [linesAll, List.forall_mem_append]
    exact ⟨fits_of_mem_lines n hFits.1 depth, fits_of_mem_linesAll ns hFits.2 depth⟩

end

/-- An outline of trees determines the trees. -/
theorem renderLines_inj {ns ms : List Node} (hNs : FitsAll ns) (hMs : FitsAll ms) {depth : Nat}
    (h : renderLines (linesAll depth ns) = renderLines (linesAll depth ms)) : ns = ms := by
  have hLines := congrArg readLines h
  rw [readLines_renderLines (fits_of_mem_linesAll ns hNs depth),
    readLines_renderLines (fits_of_mem_linesAll ms hMs depth)] at hLines
  exact linesAll_inj hLines

end Node

end MiniC
