import LineBasic.Proofs.Program.Listing
import LineBasic.Proofs.Program.Table
import Mathlib.Data.List.DropRight

/-!
# Which lines of a file are kept

A file may bring a label back, erase it and number other lines to it, in any order. What is stored under
a label does not depend on that order but on a rule: of the lines since the label was last erased, one
that wrote it goes before all that were numbered to it, and a later one before an earlier (`kept`).
A file that cannot be read so has a line that cannot be parsed, or none of the labels is left for a line
(`ofSource_kept`).
-/
namespace LineBasic

/-! ## Lines of a file -/

/-- A line of a file that is not blank. -/
structure FileLine where
  /-- The label of the line before that is not blank, or 0 if there is none. -/
  before : Label
  statement : Statement

namespace FileLine

/-- Its own label, or the one after that of the line before. -/
def label (l : FileLine) : Label :=
  l.statement.label.getD (l.before + 1)

/-- The label alone. -/
def erases (l : FileLine) (label : Label) : Bool :=
  l.statement.label = some label && l.statement.keyword = .blank

def writes (l : FileLine) (label : Label) : Bool :=
  l.statement.label = some label

/-- It has no label of its own and got this one. -/
def gets (l : FileLine) (label : Label) : Bool :=
  l.statement.label = none && l.label = label

/-- The line as it is stored. -/
def line (l : FileLine) : Line :=
  ⟨l.label, l.statement.label.isSome, { l.statement with label := some l.label }⟩

end FileLine

/-- Nothing stands on the line. -/
def Statement.isBlank (s : Statement) : Bool :=
  s.label = none && s.keyword = .blank

namespace Program

/-- The lines that statements are which follow a line labelled `last`. Blank ones do not count. -/
def numbered : (last : Label) → List Statement → List FileLine
  | _, [] => []
  | last, s :: ss =>
    if s.isBlank then numbered last ss else ⟨last, s⟩ :: numbered (FileLine.label ⟨last, s⟩) ss

/-- The statements on those lines that can be parsed. -/
def statements (texts : List (List Char)) : List Statement :=
  texts.filterMap fun text => (Statement.parse (String.ofList text)).toOption

def fileLines (source : String) : List FileLine :=
  numbered 0 (statements (Text.lines source.toList))

/-- The line that the rule keeps under a label: of those since the label was last erased, the last that
wrote it, or else the last that got it. -/
def kept (ls : List FileLine) (label : Label) : Option Line :=
  let recent := ls.rtakeWhile (!·.erases label)
  ((recent.filter (·.writes label)).getLast?.or (recent.filter (·.gets label)).getLast?).map
    FileLine.line

/-! ## The rule, line by line -/

theorem line_of_writes {l : FileLine} {label : Label} (h : l.writes label = true) :
    l.line.label = label ∧ l.line.written = true := by
  have hl : l.statement.label = some label := by simpa [FileLine.writes] using h
  exact ⟨by simp [FileLine.line, FileLine.label, hl], by simp [FileLine.line, hl]⟩

theorem line_of_gets {l : FileLine} {label : Label} (h : l.gets label = true) :
    l.line.label = label ∧ l.line.written = false := by
  obtain ⟨hn, hl⟩ : l.statement.label = none ∧ l.label = label := by simpa [FileLine.gets] using h
  exact ⟨hl, by simp [FileLine.line, hn]⟩

theorem label_of_kept {ls : List FileLine} {label : Label} {line : Line}
    (h : kept ls label = some line) : line.label = label := by
  obtain ⟨l, hl, rfl⟩ := Option.map_eq_some_iff.1 h
  rcases Option.or_eq_some_iff.1 hl with hl | ⟨-, hl⟩
  · exact (line_of_writes (List.mem_filter.1 (List.mem_of_getLast? hl)).2).1
  · exact (line_of_gets (List.mem_filter.1 (List.mem_of_getLast? hl)).2).1

section

variable {ls : List FileLine} {l : FileLine} {label : Label}

theorem kept_of_erases (h : l.erases label = true) : kept (ls ++ [l]) label = none := by
  simp [kept, h]

theorem kept_of_writes (he : l.erases label = false) (h : l.writes label = true) :
    kept (ls ++ [l]) label = some l.line := by
  simp [kept, he, h]

/-- A line with another label plays no part. -/
theorem kept_of_ne (h : l.label ≠ label) : kept (ls ++ [l]) label = kept ls label := by
  have hw : l.writes label = false := by
    rw [← Bool.not_eq_true]
    exact fun hw => h (line_of_writes hw).1
  have hg : l.gets label = false := by
    rw [← Bool.not_eq_true]
    exact fun hg => h (line_of_gets hg).1
  have he : l.erases label = false := by
    rw [FileLine.erases, show decide (l.statement.label = some label) = false from hw, Bool.false_and]
  simp [kept, he, hw, hg]

/-- A line that got the label gives way to one that wrote it. -/
theorem kept_of_gets (hnone : l.statement.label = none) (hlabel : l.label = label) :
    kept (ls ++ [l]) label =
      if (kept ls label).any (·.written) then kept ls label else some l.line := by
  have hconcat : kept (ls ++ [l]) label =
      (((ls.rtakeWhile (!·.erases label)).filter (·.writes label)).getLast?.or (some l)).map
        FileLine.line := by
    simp [kept, FileLine.erases, FileLine.writes, FileLine.gets, hnone, hlabel]
  rw [hconcat, kept]
  cases hlast : ((ls.rtakeWhile (!·.erases label)).filter (·.writes label)).getLast? with
  | some k =>
    have hk := (line_of_writes (List.mem_filter.1 (List.mem_of_getLast? hlast)).2).2
    simp [hk]
  | none =>
    cases hgot : ((ls.rtakeWhile (!·.erases label)).filter (·.gets label)).getLast? with
    | some k =>
      have hk := (line_of_gets (List.mem_filter.1 (List.mem_of_getLast? hgot)).2).2
      simp [hk]
    | none => simp

end

end Program

/-! ## The table that a file makes -/

/-- What is done to the store when the line is read. -/
def FileLine.operation (l : FileLine) : Program.Operation :=
  match l.statement.label with
  | some _ => .enter l.statement
  | none => .insert l.label l.statement false

namespace Program

theorem update_of_own {l : FileLine} {label : Label} (h : l.statement.label = some label) :
    l.operation.update = if l.statement.keyword = .blank then .delete label else .store l.line := by
  have hline : l.line = lineOf label l.statement true := by
    simp [FileLine.line, FileLine.label, lineOf, h]
  rw [hline, FileLine.operation, h]
  dsimp only
  rw [Operation.update, h]

theorem update_of_none {l : FileLine} (h : l.statement.label = none) :
    l.operation.update = .store l.line := by
  have hline : l.line = lineOf l.label l.statement false := by simp [FileLine.line, lineOf, h]
  rw [hline, FileLine.operation, h]
  rfl

theorem lookup_store_of_ne (t : Table) {line : Line} {label : Label} (h : line.label ≠ label) :
    (t.apply (.store line)).lookup label = t.lookup label := by
  rw [Table.apply]
  split
  · rfl
  · exact Finmap.lookup_insert_of_ne _ h.symm

/-- What the table holds after a line of the file is what the rule keeps. -/
theorem lookup_operation {t : Table} {ls : List FileLine}
    (ht : ∀ label, t.lookup label = (kept ls label).map Line.entry) (l : FileLine) (label : Label) :
    (t.apply l.operation.update).lookup label = (kept (ls ++ [l]) label).map Line.entry := by
  by_cases hne : l.label = label
  · subst hne
    cases hown : l.statement.label with
    | some own =>
      have hlabel : l.label = own := by simp [FileLine.label, hown]
      rw [update_of_own hown]
      split
      · next hk =>
        rw [kept_of_erases (by simp [FileLine.erases, hown, hlabel, hk]), hlabel]
        exact Finmap.lookup_erase ..
      · next hk =>
        rw [kept_of_writes (by simp [FileLine.erases, hk]) (by simp [FileLine.writes, hown, hlabel])]
        rw [Table.apply, if_neg (by simp [FileLine.line, hown])]
        exact Finmap.lookup_insert ..
    | none =>
      rw [update_of_none hown, kept_of_gets hown rfl, Table.apply]
      have hany : (t.lookup l.line.label).any (·.written) = (kept ls l.label).any (·.written) := by
        rw [show l.line.label = l.label from rfl, ht]
        cases kept ls l.label <;> rfl
      have hwritten : l.line.written = false := by simp [FileLine.line, hown]
      rw [hany]
      by_cases hkept : (kept ls l.label).any (·.written) = true
      · rw [if_pos ⟨hwritten, hkept⟩, if_pos hkept]
        exact ht l.label
      · rw [if_neg (fun h => hkept h.2), if_neg hkept]
        exact Finmap.lookup_insert ..
  · rw [kept_of_ne hne, ← ht]
    cases hown : l.statement.label with
    | some own =>
      have hlabel : l.label = own := by simp [FileLine.label, hown]
      rw [update_of_own hown]
      split
      · exact Finmap.lookup_erase_ne (fun h => hne (hlabel.trans h.symm))
      · exact lookup_store_of_ne t hne
    | none =>
      rw [update_of_none hown]
      exact lookup_store_of_ne t hne

theorem lookup_tableAfter (ls : List FileLine) (label : Label) :
    (tableAfter (ls.map FileLine.operation)).lookup label = (kept ls label).map Line.entry := by
  induction ls using List.reverseRecOn generalizing label with
  | nil => rfl
  | append_singleton ls l ih =>
    rw [List.map_append, tableAfter, List.foldl_append]
    exact lookup_operation ih l label

/-- A line is found under its label if the table has its entry there. -/
theorem Lists.find? {p : Program} {t : Table} (h : Lists p t) (label : Label) :
    (p.lines.find? (·.label = label)).map Line.entry = t.lookup label := by
  cases hf : p.lines.find? (·.label = label) with
  | some l =>
    have hl : l.label = label := by simpa using List.find?_some hf
    rw [← hl]
    exact ((h.mem_iff l).1 (List.mem_of_find?_eq_some hf)).symm
  | none =>
    cases ht : t.lookup label with
    | none => rfl
    | some e =>
      have hmem := (h.mem_iff ⟨label, e.written, e.statement⟩).2 ht
      exact absurd (List.find?_eq_none.1 hf _ hmem) (by simp)

theorem find?_after (ls : List FileLine) (label : Label) :
    (after (ls.map FileLine.operation)).lines.find? (·.label = label) = kept ls label := by
  have h := (lists_after (ls.map FileLine.operation)).find? label
  rw [lookup_tableAfter] at h
  cases hk : kept ls label with
  | none =>
    rw [hk] at h
    exact Option.map_eq_none_iff.1 h
  | some line =>
    rw [hk] at h
    obtain ⟨l, hf, he⟩ := Option.map_eq_some_iff.1 h
    have hl : l.label = label := by simpa using List.find?_some hf
    rw [hf, Line.eq_of_entry (hl.trans (label_of_kept hk).symm) he]

/-! ## Reading a file -/

theorem addText_of_error {text : List Char} {e : Error}
    (h : Statement.parse (String.ofList text) = .error e) (last : Label) (p : Program) :
    ∃ e', addText last p text = .error e' := by
  rw [addText, h]
  exact ⟨_, rfl⟩

theorem addText_of_blank {text : List Char} {s : Statement}
    (h : Statement.parse (String.ofList text) = .ok s) (hs : s.isBlank = true) (last : Label)
    (p : Program) : addText last p text = .ok (last, p) := by
  obtain ⟨hlabel, hk⟩ : s.label = none ∧ s.keyword = .blank := by simpa [Statement.isBlank] using hs
  rw [addText, h]
  dsimp only [Except.mapError, bind, Except.bind]
  rw [hlabel]
  dsimp only
  rw [if_pos hk]
  rfl

/-- A line without a label needs one. -/
theorem addText_of_none {text : List Char} {s : Statement}
    (h : Statement.parse (String.ofList text) = .ok s) (hs : ¬ s.isBlank = true) (hlabel : s.label = none)
    {last : Label} (hlast : last ≤ maxLabel) (p : Program) :
    (last = maxLabel ∧ ∃ e, addText last p text = .error e) ∨
      last < maxLabel ∧ addText last p text = .ok (last + 1, (p.insert (last + 1) s false).2) := by
  have hk : ¬ s.keyword = .blank := fun hk => hs (by simp [Statement.isBlank, hlabel, hk])
  rw [addText, h]
  dsimp only [Except.mapError, bind, Except.bind]
  rw [hlabel]
  dsimp only
  rw [if_neg hk]
  rcases Nat.lt_or_eq_of_le hlast with hlt | heq
  · rw [if_neg (Nat.not_le.2 hlt)]
    exact .inr ⟨hlt, rfl⟩
  · rw [if_pos (Nat.le_of_eq heq.symm)]
    exact .inl ⟨heq, _, rfl⟩

/-- Each of the lines that follow one labelled `last` can be parsed, and there is a label for each that
needs one. -/
structure Fits (last : Label) (texts : List (List Char)) : Prop where
  parsed : ∀ text ∈ texts, ∃ s, Statement.parse (String.ofList text) = .ok s
  room : ∀ l ∈ numbered last (statements texts), l.statement.label = none → l.before ≠ maxLabel

section

variable {text : List Char} {s : Statement} (h : Statement.parse (String.ofList text) = .ok s)
  (last : Label) (texts : List (List Char))

include h

theorem statements_cons : statements (text :: texts) = s :: statements texts := by
  simp [statements, h, Except.toOption]

theorem fits_cons_of_blank (hs : s.isBlank = true) : Fits last (text :: texts) ↔ Fits last texts := by
  have hnum : numbered last (statements (text :: texts)) = numbered last (statements texts) := by
    rw [statements_cons h, numbered, if_pos hs]
  constructor
  · intro hf
    exact ⟨(List.forall_mem_cons.1 hf.parsed).2, hnum ▸ hf.room⟩
  · intro hf
    exact ⟨List.forall_mem_cons.2 ⟨⟨s, h⟩, hf.parsed⟩, hnum ▸ hf.room⟩

theorem numbered_cons (hs : ¬ s.isBlank = true) :
    numbered last (statements (text :: texts)) =
      ⟨last, s⟩ :: numbered (FileLine.label ⟨last, s⟩) (statements texts) := by
  rw [statements_cons h, numbered, if_neg hs]

theorem fits_cons (hs : ¬ s.isBlank = true) :
    Fits last (text :: texts) ↔
      (s.label = none → last ≠ maxLabel) ∧ Fits (FileLine.label ⟨last, s⟩) texts := by
  have hnum := numbered_cons h last texts hs
  constructor
  · intro hf
    have hroom := hf.room
    rw [hnum] at hroom
    obtain ⟨hfirst, hroom⟩ := List.forall_mem_cons.1 hroom
    exact ⟨hfirst, (List.forall_mem_cons.1 hf.parsed).2, hroom⟩
  · rintro ⟨hfirst, hf⟩
    refine ⟨List.forall_mem_cons.2 ⟨⟨s, h⟩, hf.parsed⟩, ?_⟩
    rw [hnum]
    exact List.forall_mem_cons.2 ⟨hfirst, hf.room⟩

end

/-- Reading lines does to the store what they say, or fails if they do not fit. -/
theorem foldlM_addText_numbered (texts : List (List Char)) {last : Label} (hlast : last ≤ maxLabel)
    (p : Program) :
    (Fits last texts ∧ ∃ last', texts.foldlM (fun r text => addText r.1 r.2 text) (last, p) =
        Except.ok (last', ((numbered last (statements texts)).map FileLine.operation).foldl
          (fun p op => (op.run p).2) p)) ∨
      ¬ Fits last texts ∧ ∃ e, texts.foldlM (fun r text => addText r.1 r.2 text) (last, p) =
        Except.error e := by
  induction texts generalizing last p with
  | nil => exact .inl ⟨⟨by simp, by simp [statements, numbered]⟩, last, rfl⟩
  | cons text texts ih =>
    rw [List.foldlM_cons]
    cases hparse : Statement.parse (String.ofList text) with
    | error e =>
      obtain ⟨e', he'⟩ := addText_of_error hparse last p
      refine .inr ⟨fun hf => ?_, e', by rw [he']; rfl⟩
      obtain ⟨s, hs⟩ := hf.parsed text (by simp)
      cases hparse.symm.trans hs
    | ok s =>
      by_cases hs : s.isBlank = true
      · rw [addText_of_blank hparse hs, fits_cons_of_blank hparse last texts hs, statements_cons hparse,
          numbered, if_pos hs]
        exact ih hlast p
      · rw [fits_cons hparse last texts hs, numbered_cons hparse last texts hs, List.map_cons,
          List.foldl_cons]
        cases hlabel : s.label with
        | some own =>
          have hown : own ≤ maxLabel := ((Statement.sound_of_parse hparse).2 own hlabel).2
          have hl : FileLine.label ⟨last, s⟩ = own := by simp [FileLine.label, hlabel]
          have hop : FileLine.operation ⟨last, s⟩ = .enter s := by rw [FileLine.operation, hlabel]
          have hroom : some own = none → last ≠ maxLabel := fun h => by cases h
          rw [addText_of_parse hparse hlabel, hl, hop, and_iff_right hroom]
          exact ih hown (p.apply s).2
        | none =>
          have hl : FileLine.label ⟨last, s⟩ = last + 1 := by simp [FileLine.label, hlabel]
          have hop : FileLine.operation ⟨last, s⟩ = .insert (last + 1) s false := by
            rw [FileLine.operation, hlabel, hl]
          rcases addText_of_none hparse hs hlabel hlast p with ⟨heq, e, he⟩ | ⟨hlt, hadd⟩
          · exact .inr ⟨fun hf => hf.1 rfl heq, e, by rw [he]; rfl⟩
          · have hroom : (none : Option Label) = none → last ≠ maxLabel := fun _ => Nat.ne_of_lt hlt
            rw [hadd, hl, hop, and_iff_right hroom]
            exact ih hlt (p.insert (last + 1) s false).2

theorem ofSource_eq (source : String) :
    (Fits 0 (Text.lines source.toList) ∧
        ofSource source = .ok (after ((fileLines source).map FileLine.operation))) ∨
      ¬ Fits 0 (Text.lines source.toList) ∧ ∃ e, ofSource source = .error e := by
  rcases foldlM_addText_numbered (Text.lines source.toList) (Nat.zero_le maxLabel) {} with
    ⟨hf, last, h⟩ | ⟨hf, e, h⟩
  · refine .inl ⟨hf, ?_⟩
    show Except.bind (List.foldlM (fun r text => addText r.1 r.2 text) (0, {}) _) _ = _
    rw [h]
    rfl
  · refine .inr ⟨hf, e, ?_⟩
    show Except.bind (List.foldlM (fun r text => addText r.1 r.2 text) (0, {}) _) _ = _
    rw [h]
    rfl

/-- If every line of a file can be parsed, and none without a label follows the greatest label, the file
holds a program with the lines that the rule keeps. Otherwise it is refused. -/
theorem ofSource_kept (source : String) :
    ((∀ text ∈ Text.lines source.toList, ∃ s, Statement.parse (String.ofList text) = .ok s) →
        (∀ l ∈ fileLines source, l.statement.label = none → l.before ≠ 32767) →
        ∃ p, ofSource source = .ok p ∧ p.Ascending ∧
          ∀ label, p.lines.find? (·.label = label) = kept (fileLines source) label) ∧
      ((∃ e, ofSource source = .error e) ↔
        (∃ text ∈ Text.lines source.toList, ∃ e, Statement.parse (String.ofList text) = .error e) ∨
          ∃ l ∈ fileLines source, l.statement.label = none ∧ l.before = 32767) := by
  rcases ofSource_eq source with ⟨hf, hok⟩ | ⟨hf, e, herr⟩
  · refine ⟨fun _ _ => ⟨_, hok, (lists_after _).ascending, find?_after (fileLines source)⟩, ?_⟩
    constructor
    · rintro ⟨e, he⟩
      cases hok.symm.trans he
    · rintro (⟨text, htext, e, he⟩ | ⟨l, hl, hnone, hlast⟩)
      · obtain ⟨s, hs⟩ := hf.parsed text htext
        cases he.symm.trans hs
      · exact absurd hlast (hf.room l hl hnone)
  · refine ⟨fun hparsed hroom => absurd ⟨hparsed, hroom⟩ hf, fun _ => ?_, fun _ => ⟨e, herr⟩⟩
    by_contra hnone
    rw [not_or] at hnone
    refine hf ⟨fun text htext => ?_, fun l hl hlabel hlast => hnone.2 ⟨l, hl, hlabel, hlast⟩⟩
    cases hparse : Statement.parse (String.ofList text) with
    | ok s => exact ⟨s, rfl⟩
    | error e => exact absurd ⟨text, htext, e, hparse⟩ hnone.1

/-- A line that writes 11 goes before a later one that gets it, one that gets 20 is kept after 20 was erased,
and 10 is written twice. -/
def collisions : String :=
  "11 PRINT 1\n10 REM\nPRINT 2\n20 PRINT 3\n20\n19 PRINT 4\n\nPRINT 5\n10 END\n"

theorem ofSource_kept_collisions :
    ∃ p, ofSource collisions = .ok p ∧
      (∀ label, p.lines.find? (·.label = label) = kept (fileLines collisions) label) ∧
      p.lines.map (fun l => (l.label, l.written, l.statement.render)) =
        [(10, true, "END"), (11, true, "PRINT 1"), (19, true, "PRINT 4"), (20, false, "PRINT 5")] := by
  have hparsed : ∀ text ∈ Text.lines collisions.toList, ∃ s, Statement.parse (String.ofList text) = .ok s := by
    have hall : (Text.lines collisions.toList).all
        (fun text => (Statement.parse (String.ofList text)).toOption.isSome) = true := by decide +kernel
    intro text htext
    have h := List.all_eq_true.1 hall text htext
    cases hparse : Statement.parse (String.ofList text) with
    | ok s => exact ⟨s, rfl⟩
    | error e =>
      rw [hparse] at h
      cases h
  have hroom : (fileLines collisions).all (fun l => l.statement.label.isSome || l.before ≠ 32767) = true := by
    decide +kernel
  have hlines : (ofSource collisions).map (·.lines.map fun l => (l.label, l.written, l.statement.render)) =
      .ok [(10, true, "END"), (11, true, "PRINT 1"), (19, true, "PRINT 4"), (20, false, "PRINT 5")] := by
    decide +kernel
  obtain ⟨p, hp, -, hkept⟩ := (ofSource_kept collisions).1 hparsed fun l hl hnone => by
    simpa [hnone] using List.all_eq_true.1 hroom l hl
  rw [hp] at hlines
  exact ⟨p, hp, hkept, Except.ok.inj hlines⟩

end Program

end LineBasic
