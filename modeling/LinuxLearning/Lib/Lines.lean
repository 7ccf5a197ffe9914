/-
Byte strings cut into lines by CR LF.  `scan` looks at a string from the left
until its first CR or LF decides: a complete line, a line that may still be
completed by more bytes, or a line broken by a lone CR or LF.
-/
import Mathlib.Data.List.Chain
import LinuxLearning.Lib.Buffer

namespace Lines

def CR : Byte := 13
def LF : Byte := 10

/-- No CR and no LF inside. -/
def IsLine (line : List Byte) : Prop := ∀ b ∈ line, b ≠ CR ∧ b ≠ LF

instance (line : List Byte) : Decidable (IsLine line) :=
  List.decidableBAll (fun b => b ≠ CR ∧ b ≠ LF) line

/-- How the first line of a string stands. -/
inductive Scan where
  | line (text rest : List Byte)
  | more (text : List Byte)
  | broken (text : List Byte)
deriving DecidableEq

/-- Put one more byte before the line. -/
def Scan.push (b : Byte) : Scan → Scan
  | .line text rest => .line (b :: text) rest
  | .more text => .more (b :: text)
  | .broken text => .broken (b :: text)

/-- The first line of a string. -/
def scan : List Byte → Scan
  | [] => .more []
  | b :: bs =>
      if b = CR then
        match bs with
        | [] => .more []
        | next :: rest => if next = LF then .line [] rest else .broken []
      else if b = LF then .broken []
      else (scan bs).push b

/-- A list of lines, each followed by CR LF. -/
def joinLines (lines : List (List Byte)) : List Byte :=
  lines.flatMap fun line => line ++ [CR, LF]

@[simp] theorem isLine_nil : IsLine [] := by simp [IsLine]

@[simp] theorem isLine_cons (b : Byte) (line : List Byte) :
    IsLine (b :: line) ↔ (b ≠ CR ∧ b ≠ LF) ∧ IsLine line := by
  simp [IsLine]

@[simp] theorem isLine_append (first second : List Byte) :
    IsLine (first ++ second) ↔ IsLine first ∧ IsLine second := by
  simp only [IsLine, List.forall_mem_append]

@[simp] theorem joinLines_nil : joinLines [] = [] := rfl

@[simp] theorem joinLines_cons (line : List Byte) (lines : List (List Byte)) :
    joinLines (line :: lines) = line ++ CR :: LF :: joinLines lines := by
  simp [joinLines]

@[simp] theorem joinLines_append (first second : List (List Byte)) :
    joinLines (first ++ second) = joinLines first ++ joinLines second := by
  simp [joinLines]

theorem scan_append_of_isLine {line : List Byte} (hline : IsLine line)
    (rest : List Byte) :
    scan (line ++ rest) = line.foldr Scan.push (scan rest) := by
  induction line with
  | nil => rfl
  | cons b line ih =>
      rw [isLine_cons] at hline
      simp [scan, hline.1, ih hline.2]

theorem foldr_push_line (line text rest : List Byte) :
    line.foldr Scan.push (.line text rest) = .line (line ++ text) rest := by
  induction line with
  | nil => rfl
  | cons b line ih => simp [ih, Scan.push]

theorem foldr_push_more (line text : List Byte) :
    line.foldr Scan.push (.more text) = .more (line ++ text) := by
  induction line with
  | nil => rfl
  | cons b line ih => simp [ih, Scan.push]

theorem foldr_push_broken (line text : List Byte) :
    line.foldr Scan.push (.broken text) = .broken (line ++ text) := by
  induction line with
  | nil => rfl
  | cons b line ih => simp [ih, Scan.push]

theorem scan_line {line : List Byte} (hline : IsLine line) (rest : List Byte) :
    scan (line ++ CR :: LF :: rest) = .line line rest := by
  rw [scan_append_of_isLine hline]
  simp [scan, foldr_push_line]

theorem scan_more {line : List Byte} (hline : IsLine line) :
    scan line = .more line := by
  have := scan_append_of_isLine hline []
  simpa [scan, foldr_push_more] using this

theorem scan_more_cr {line : List Byte} (hline : IsLine line) :
    scan (line ++ [CR]) = .more line := by
  rw [scan_append_of_isLine hline]
  simp [scan, foldr_push_more]

theorem scan_broken_lf {line : List Byte} (hline : IsLine line)
    (rest : List Byte) : scan (line ++ LF :: rest) = .broken line := by
  rw [scan_append_of_isLine hline]
  simp [scan, foldr_push_broken, LF, CR]

theorem scan_broken_cr {line : List Byte} (hline : IsLine line) {next : Byte}
    (hnext : next ≠ LF) (rest : List Byte) :
    scan (line ++ CR :: next :: rest) = .broken line := by
  rw [scan_append_of_isLine hline]
  simp [scan, foldr_push_broken, hnext]

/-- The five shapes a string can have before its first CR or LF decides. -/
theorem scan_cases (s : List Byte) :
    (∃ text rest, IsLine text ∧ s = text ++ CR :: LF :: rest) ∨
    IsLine s ∨
    (∃ text, IsLine text ∧ s = text ++ [CR]) ∨
    (∃ text rest, IsLine text ∧ s = text ++ LF :: rest) ∨
    (∃ text next rest, IsLine text ∧ next ≠ LF ∧
      s = text ++ CR :: next :: rest) := by
  induction s with
  | nil => exact Or.inr (Or.inl isLine_nil)
  | cons b s ih =>
      by_cases hcr : b = CR
      · cases s with
        | nil => exact Or.inr (Or.inr (Or.inl ⟨[], isLine_nil, by simp [hcr]⟩))
        | cons next rest =>
            by_cases hlf : next = LF
            · exact Or.inl ⟨[], rest, isLine_nil, by simp [hcr, hlf]⟩
            · exact Or.inr (Or.inr (Or.inr (Or.inr
                ⟨[], next, rest, isLine_nil, hlf, by simp [hcr]⟩)))
      by_cases hlf : b = LF
      · exact Or.inr (Or.inr (Or.inr (Or.inl ⟨[], s, isLine_nil, by simp [hlf]⟩)))
      have hpush : ∀ {line : List Byte}, IsLine line → IsLine (b :: line) :=
        fun hline => (isLine_cons b _).mpr ⟨⟨hcr, hlf⟩, hline⟩
      rcases ih with ⟨text, rest, hline, rfl⟩ | hline | ⟨text, hline, rfl⟩ |
        ⟨text, rest, hline, rfl⟩ | ⟨text, next, rest, hline, hnext, rfl⟩
      · exact Or.inl ⟨b :: text, rest, hpush hline, rfl⟩
      · exact Or.inr (Or.inl (hpush hline))
      · exact Or.inr (Or.inr (Or.inl ⟨b :: text, hpush hline, rfl⟩))
      · exact Or.inr (Or.inr (Or.inr (Or.inl ⟨b :: text, rest, hpush hline, rfl⟩)))
      · exact Or.inr (Or.inr (Or.inr (Or.inr
          ⟨b :: text, next, rest, hpush hline, hnext, rfl⟩)))

/-- The text before the first CR or LF, and the rest. -/
theorem exists_text (s : List Byte) :
    ∃ text rest, IsLine text ∧ s = text ++ rest ∧ ∀ b ∈ rest.head?, b = CR ∨ b = LF := by
  rcases scan_cases s with ⟨text, rest, htext, rfl⟩ | htext | ⟨text, htext, rfl⟩ |
    ⟨text, rest, htext, rfl⟩ | ⟨text, next, rest, htext, -, rfl⟩
  · exact ⟨text, _, htext, rfl, by simp⟩
  · exact ⟨s, [], htext, (List.append_nil s).symm, by simp⟩
  · exact ⟨text, _, htext, rfl, by simp⟩
  · exact ⟨text, _, htext, rfl, by simp⟩
  · exact ⟨text, _, htext, rfl, by simp⟩

/-- No complete line stands at the front. -/
def Open (s : List Byte) : Prop := ∀ line tail, IsLine line → s ≠ line ++ CR :: LF :: tail

theorem open_nil : Open [] := by
  intro line tail _ h
  cases line <;> cases h

theorem open_cons {b : Byte} {data : List Byte} (hcr : b ≠ CR) (h : Open data) :
    Open (b :: data) := by
  intro line tail hline heq
  cases line with
  | nil =>
      rw [List.nil_append, List.cons.injEq] at heq
      exact hcr heq.1
  | cons first line =>
      rw [List.cons_append, List.cons.injEq] at heq
      exact h line tail (fun x hx => hline x (List.mem_cons_of_mem _ hx)) heq.2

theorem open_lf (data : List Byte) : Open (LF :: data) := by
  intro line tail hline heq
  cases line with
  | nil => cases heq
  | cons first line =>
      rw [List.cons_append, List.cons.injEq] at heq
      exact (hline first List.mem_cons_self).2 heq.1.symm

theorem open_cr {data : List Byte} (hdata : data.head? ≠ some LF) : Open (CR :: data) := by
  intro line tail hline heq
  cases line with
  | nil =>
      rw [List.nil_append, List.cons.injEq] at heq
      exact hdata (by rw [heq.2]; rfl)
  | cons first line =>
      rw [List.cons_append, List.cons.injEq] at heq
      exact (hline first List.mem_cons_self).1 heq.1.symm

theorem open_of_scan {s : List Byte} (h : ∀ text rest, scan s ≠ .line text rest) : Open s := by
  rintro line tail hline rfl
  exact h line tail (scan_line hline tail)

/-- Every string is a list of lines and a part without a complete line. -/
theorem exists_lines (s : List Byte) :
    ∃ lines rest, s = joinLines lines ++ rest ∧ (∀ line ∈ lines, IsLine line) ∧
      Open rest := by
  induction hlen : s.length using Nat.strong_induction_on generalizing s with
  | h n ih =>
      have hstop : Open s → ∃ lines rest, s = joinLines lines ++ rest ∧
          (∀ line ∈ lines, IsLine line) ∧ Open rest :=
        fun hopen => ⟨[], s, rfl, nofun, hopen⟩
      rcases scan_cases s with ⟨text, rest, htext, rfl⟩ | htext | ⟨text, htext, rfl⟩ |
        ⟨text, rest, htext, rfl⟩ | ⟨text, next, rest, htext, hnext, rfl⟩
      · simp only [List.length_append, List.length_cons] at hlen
        obtain ⟨lines, tail, rfl, hlines, hopen⟩ := ih rest.length (by omega) rest rfl
        refine ⟨text :: lines, tail, by simp, ?_, hopen⟩
        rw [List.forall_mem_cons]
        exact ⟨htext, hlines⟩
      · exact hstop (open_of_scan (by rw [scan_more htext]; exact nofun))
      · exact hstop (open_of_scan (by rw [scan_more_cr htext]; exact nofun))
      · exact hstop (open_of_scan (by rw [scan_broken_lf htext]; exact nofun))
      · exact hstop (open_of_scan (by rw [scan_broken_cr htext hnext]; exact nofun))

/-- What a proper start of a line and its end is not: a complete line. -/
theorem open_of_prefix {line part rest : List Byte} (hline : IsLine line)
    (hpart : line ++ [CR, LF] = part ++ rest) (hrest : rest ≠ []) : Open part := by
  rintro text tail htext rfl
  have hscan : scan (line ++ [CR, LF]) = .line line [] := scan_line hline []
  rw [hpart, List.append_assoc] at hscan
  have hscan' := scan_line htext (tail ++ rest)
  rw [List.cons_append, List.cons_append, hscan', Scan.line.injEq] at hscan
  exact hrest (List.append_eq_nil_iff.mp hscan.2).2

/-- A proper start of a list of lines: some of the lines, and a part of the
next one. -/
theorem prefix_joinLines {lines : List (List Byte)} (hlines : ∀ line ∈ lines, IsLine line)
    {part rest : List Byte} (hpart : joinLines lines = part ++ rest) (hrest : rest ≠ []) :
    ∃ before line after tail, lines = before ++ line :: after ∧
      part = joinLines before ++ tail ∧ Open tail := by
  induction lines generalizing part with
  | nil =>
      rw [joinLines_nil] at hpart
      exact absurd (List.append_eq_nil_iff.mp hpart.symm).2 hrest
  | cons line lines ih =>
      rw [List.forall_mem_cons] at hlines
      have hsplit : (line ++ [CR, LF]) ++ joinLines lines = part ++ rest := by
        rw [← hpart]
        simp
      rcases List.append_eq_append_iff.mp hsplit with ⟨more, rfl, hmore⟩ | ⟨more, hmore, hrest'⟩
      · obtain ⟨before, line', after, tail, rfl, rfl, hopen⟩ := ih hlines.2 hmore
        exact ⟨line :: before, line', after, tail, rfl, by simp, hopen⟩
      · by_cases hnil : more = []
        · subst hnil
          rw [List.append_nil] at hmore
          rw [List.nil_append] at hrest'
          have hnone : joinLines lines = [] ++ rest := by
            rw [List.nil_append, hrest']
          obtain ⟨before, line', after, tail, rfl, htail, hopen⟩ := ih hlines.2 hnone
          refine ⟨line :: before, line', after, tail, rfl, ?_, hopen⟩
          rw [← hmore, joinLines_cons]
          simp only [List.append_assoc, List.cons_append, ← htail]
        · exact ⟨[], line, lines, part, rfl, rfl, open_of_prefix hlines.1 hmore hnil⟩

/-- A string has one first line. -/
theorem first_line_unique {line rest line' rest' : List Byte} (hline : IsLine line)
    (hline' : IsLine line') (h : line ++ CR :: LF :: rest = line' ++ CR :: LF :: rest') :
    line = line' ∧ rest = rest' := by
  have hscan := scan_line hline rest
  rw [h, scan_line hline' rest', Scan.line.injEq] at hscan
  exact ⟨hscan.1.symm, hscan.2.symm⟩

/-- A list of lines that are not empty, the empty line, and a body: a string
can be read so in one way. -/
theorem joinLines_blank_unique {lines lines' : List (List Byte)} {body body' : List Byte}
    (hlines : ∀ line ∈ lines, IsLine line ∧ line ≠ [])
    (hlines' : ∀ line ∈ lines', IsLine line ∧ line ≠ [])
    (h : joinLines (lines ++ [[]]) ++ body = joinLines (lines' ++ [[]]) ++ body') :
    lines = lines' ∧ body = body' := by
  induction lines generalizing lines' with
  | nil =>
      cases lines' with
      | nil =>
          obtain ⟨-, hbody⟩ := first_line_unique isLine_nil isLine_nil (by simpa using h)
          exact ⟨rfl, hbody⟩
      | cons line' lines' =>
          rw [List.forall_mem_cons] at hlines'
          obtain ⟨hnil, -⟩ := first_line_unique isLine_nil hlines'.1.1 (by simpa using h)
          exact absurd hnil.symm hlines'.1.2
  | cons line lines ih =>
      rw [List.forall_mem_cons] at hlines
      cases lines' with
      | nil =>
          obtain ⟨hnil, -⟩ := first_line_unique hlines.1.1 isLine_nil (by simpa using h)
          exact absurd hnil hlines.1.2
      | cons line' lines' =>
          rw [List.forall_mem_cons] at hlines'
          simp only [List.cons_append, joinLines_cons, List.append_assoc] at h
          obtain ⟨rfl, hrest⟩ := first_line_unique hlines.1.1 hlines'.1.1 h
          obtain ⟨rfl, hbody⟩ := ih hlines.2 hlines'.2 hrest
          exact ⟨rfl, hbody⟩

/-- Every CR is followed by an LF, as far as the string goes, and every LF
follows a CR. -/
def WellEnded (s : List Byte) : Prop :=
  s.head? ≠ some LF ∧ s.IsChain fun a b => a = CR ↔ b = LF

instance (s : List Byte) : Decidable (WellEnded s) :=
  inferInstanceAs (Decidable (s.head? ≠ some LF ∧ s.IsChain fun a b => a = CR ↔ b = LF))

theorem wellEnded_nil : WellEnded [] := ⟨nofun, .nil⟩

theorem wellEnded_cr : WellEnded [CR] := ⟨by decide, .singleton CR⟩

theorem wellEnded_cons {b : Byte} (hb : b ≠ CR ∧ b ≠ LF) (s : List Byte) :
    WellEnded (b :: s) ↔ WellEnded s := by
  simp only [WellEnded, List.isChain_cons, List.head?_cons, hb.1, false_iff]
  constructor
  · rintro ⟨-, hhead, hchain⟩
    exact ⟨fun hlf => hhead LF hlf rfl, hchain⟩
  · rintro ⟨hhead, hchain⟩
    refine ⟨fun hlf => hb.2 (Option.some.inj hlf), ?_, hchain⟩
    rintro y hy rfl
    exact hhead hy

theorem wellEnded_append {line : List Byte} (hline : IsLine line) (s : List Byte) :
    WellEnded (line ++ s) ↔ WellEnded s := by
  induction line with
  | nil => exact Iff.rfl
  | cons b line ih =>
      rw [isLine_cons] at hline
      rw [List.cons_append, wellEnded_cons hline.1, ih hline.2]

theorem wellEnded_crlf (s : List Byte) : WellEnded (CR :: LF :: s) ↔ WellEnded s := by
  have hne : CR ≠ LF := by decide
  simp only [WellEnded, List.isChain_cons, List.head?_cons]
  constructor
  · rintro ⟨-, -, hhead, hchain⟩
    exact ⟨fun hlf => hne ((hhead LF hlf).mpr rfl).symm, hchain⟩
  · rintro ⟨hhead, hchain⟩
    refine ⟨by decide, ?_, ?_, hchain⟩
    · rintro y hy
      cases hy
      exact iff_of_true trivial rfl
    · rintro y hy
      refine iff_of_false (by decide) ?_
      rintro rfl
      exact hhead hy

/-- Complete lines are well ended. -/
theorem wellEnded_joinLines {lines : List (List Byte)} (hlines : ∀ line ∈ lines, IsLine line)
    (s : List Byte) : WellEnded (joinLines lines ++ s) ↔ WellEnded s := by
  induction lines with
  | nil => exact Iff.rfl
  | cons line lines ih =>
      rw [List.forall_mem_cons] at hlines
      rw [joinLines_cons, List.append_assoc, List.cons_append, List.cons_append,
        wellEnded_append hlines.1, wellEnded_crlf, ih hlines.2]

/-- What stands behind the complete lines decides: a line that can still be
completed is well ended. -/
theorem open_cases {rest : List Byte} (hopen : Open rest) :
    (WellEnded rest ∧ ∃ text more, IsLine text ∧ more.length ≤ 2 ∧
      rest ++ more = text ++ [CR, LF]) ∨
    (¬ WellEnded rest ∧ ∀ more, Open (rest ++ more)) := by
  rcases scan_cases rest with ⟨text, tail, htext, rfl⟩ | htext | ⟨text, htext, rfl⟩ |
    ⟨text, tail, htext, rfl⟩ | ⟨text, next, tail, htext, hnext, rfl⟩
  · exact absurd rfl (hopen text tail htext)
  · refine Or.inl ⟨?_, rest, [CR, LF], htext, Nat.le_refl 2, rfl⟩
    rw [← List.append_nil rest, wellEnded_append htext]
    exact wellEnded_nil
  · refine Or.inl ⟨?_, text, [LF], htext, Nat.le_succ 1, by simp⟩
    rw [wellEnded_append htext]
    exact wellEnded_cr
  · refine Or.inr ⟨?_, fun more => open_of_scan ?_⟩
    · rw [wellEnded_append htext]
      exact fun h => h.1 rfl
    · rw [List.append_assoc, List.cons_append, scan_broken_lf htext]
      exact nofun
  · refine Or.inr ⟨?_, fun more => open_of_scan ?_⟩
    · rw [wellEnded_append htext]
      exact fun h => hnext (((List.isChain_cons.mp h.2).1 next rfl).mp rfl)
    · rw [List.append_assoc, List.cons_append, List.cons_append, scan_broken_cr htext hnext]
      exact nofun

/-- The first CR LF of a string that has one. -/
theorem exists_first_crlf {s before after : List Byte} (h : s = before ++ CR :: LF :: after) :
    ∃ line rest, s = line ++ CR :: LF :: rest ∧ ¬ [CR, LF] <:+: line ∧ line <+: before := by
  induction before generalizing s with
  | nil => exact ⟨[], after, h, by simp, List.nil_prefix⟩
  | cons b before ih =>
      obtain ⟨line, rest, hline, hfirst, hprefix⟩ := ih rfl
      by_cases hnow : [CR, LF] <+: b :: line
      · obtain ⟨tail, htail⟩ := hnow
        refine ⟨[], tail ++ CR :: LF :: rest, ?_, by simp, List.nil_prefix⟩
        rw [h, List.cons_append, hline, ← List.cons_append, ← htail]
        simp
      · refine ⟨b :: line, rest, ?_, ?_, (List.prefix_cons_inj b).mpr hprefix⟩
        · rw [h, List.cons_append, hline, List.cons_append]
        · rw [List.infix_cons_iff]
          exact fun hinfix => hinfix.elim hnow hfirst

/-- Two CR LF in a row, the first of which may be the one in front: an empty
line, and lines that are not empty before it. -/
theorem exists_empty_line {s : List Byte} (h : [CR, LF, CR, LF] <:+: CR :: LF :: s) :
    ∃ lines rest, s = joinLines (lines ++ [[]]) ++ rest ∧
      ∀ line ∈ lines, line ≠ [] ∧ ¬ [CR, LF] <:+: line := by
  induction hlen : s.length using Nat.strong_induction_on generalizing s with
  | h n ih =>
      obtain ⟨before, after, hsplit⟩ := h
      match before, hsplit with
      | [], hsplit =>
          have hs : s = CR :: LF :: after := by simpa using hsplit.symm
          exact ⟨[], after, by simp [hs], by simp⟩
      | [b], hsplit =>
          have hne : CR ≠ LF := by decide
          exact absurd (List.cons.inj (List.cons.inj hsplit).2).1 hne
      | b :: b' :: before, hsplit =>
          have hs : s = before ++ CR :: LF :: (CR :: LF :: after) := by
            simpa using (List.cons.inj (List.cons.inj hsplit).2).2.symm
          obtain ⟨line, rest, hline, hfirst, more, rfl⟩ := exists_first_crlf hs
          by_cases hnil : line = []
          · exact ⟨[], rest, by simp [hline, hnil], by simp⟩
          · have hrest : [CR, LF, CR, LF] <:+: CR :: LF :: rest := by
              refine ⟨more, after, ?_⟩
              have hboth := hline.symm.trans hs
              rw [List.append_assoc] at hboth
              simpa using (List.append_cancel_left hboth).symm
            have hless : rest.length < n := by
              rw [← hlen, hline]
              simp only [List.length_append, List.length_cons]
              omega
            obtain ⟨lines, rest', hlines, hall⟩ := ih rest.length hless hrest rfl
            refine ⟨line :: lines, rest', by simp [hline, hlines], ?_⟩
            rw [List.forall_mem_cons]
            exact ⟨⟨hnil, hfirst⟩, hall⟩

/-- A line is what stands before the first CR LF. -/
theorem line_unique {line rest line' rest' : List Byte} (hline : IsLine line)
    (hline' : ¬ [CR, LF] <:+: line') (h : line ++ CR :: LF :: rest = line' ++ CR :: LF :: rest') :
    line = line' ∧ rest = rest' := by
  have hne : CR ≠ LF := by decide
  rcases List.append_eq_append_iff.mp h with ⟨more, rfl, hmore⟩ | ⟨more, rfl, hmore⟩
  · match more, hmore with
    | [], hmore => simpa using hmore
    | [b], hmore =>
        have htail := (List.cons.inj hmore).2
        exact absurd (List.cons.inj htail).1.symm hne
    | b :: b' :: more, hmore =>
        obtain ⟨rfl, htail⟩ := List.cons.inj hmore
        obtain ⟨rfl, -⟩ := List.cons.inj htail
        exact absurd ⟨line, more, by simp⟩ hline'
  · cases more with
    | nil => simpa using hmore.symm
    | cons b more =>
        rw [isLine_append, isLine_cons] at hline
        exact absurd (List.cons.inj hmore).1.symm hline.2.1.1

/-- Two CR LF in a row begin with the end of the first line or behind it. -/
theorem infix_behind_line {line rest : List Byte} (hline : IsLine line)
    (h : [CR, LF, CR, LF] <:+: line ++ CR :: LF :: rest) :
    [CR, LF, CR, LF] <:+: CR :: LF :: rest := by
  induction line with
  | nil => exact h
  | cons b line ih =>
      rw [isLine_cons] at hline
      rw [List.cons_append, List.infix_cons_iff, List.cons_prefix_cons] at h
      rcases h with ⟨hcr, -⟩ | hlater
      · exact absurd hcr.symm hline.1.1
      · exact ih hline.2 hlater

end Lines
