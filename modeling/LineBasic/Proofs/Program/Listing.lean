import LineBasic.Proofs.Machine.Sound
import LineBasic.Proofs.Statement.Printed

/-!
# Listings

The texts that `LIST` shows are the lines of a file that holds the same program: each is a line of text
by itself (`Line.isLine_render`), it is read back as the statement that it shows, and the lines come in the
order of their labels, so each is added behind the ones before (`addText_render`).
-/
namespace LineBasic

/-! ## Lines of text -/

namespace Text

theorem newline_not_mem_lines (cs : List Char) : ∀ t ∈ lines cs, '\n' ∉ t := by
  fun_induction lines cs with
  | case1 => simp
  | case2 cs ih | case3 cs ih => simpa using ih
  | case4 c cs hc _ _ => simpa using fun h => hc h.symm
  | case5 c cs hc _ l ls hl ih =>
    rw [hl] at ih
    simpa [Ne.symm hc] using ih

theorem lines_cons {c : Char} {cs l : List Char} {ls : List (List Char)} (hc : c ≠ '\n')
    (hr : c = '\r' → cs.head? ≠ some '\n') (h : lines cs = l :: ls) : lines (c :: cs) = (c :: l) :: ls := by
  rw [lines, h]
  · exact hc
  · rintro cs' rfl rfl
    exact hr rfl rfl

/-- The text stands on a line of its own. -/
structure IsLine (t : List Char) : Prop where
  ne_nil : t ≠ []
  newline : '\n' ∉ t
  last : t.getLast? ≠ some '\r'

theorem lines_append {t : List Char} (hn : '\n' ∉ t) (hr : t.getLast? ≠ some '\r') (cs : List Char) :
    lines (t ++ '\n' :: cs) = t :: lines cs := by
  induction t with
  | nil => rfl
  | cons c t ih =>
    obtain ⟨hc, hn⟩ : '\n' ≠ c ∧ '\n' ∉ t := by simpa using hn
    cases t with
    | nil =>
      -- a carriage return would go with the line feed
      exact lines_cons hc.symm (by rintro rfl; exact absurd rfl hr) rfl
    | cons d t =>
      have hd : d ≠ '\n' := fun h => hn (by simp [h])
      exact lines_cons hc.symm (fun _ => by simpa using hd) (ih hn (by simpa using hr))

theorem lines_of_newline_not_mem {t : List Char} (hne : t ≠ []) (hn : '\n' ∉ t) : lines t = [t] := by
  induction t with
  | nil => exact absurd rfl hne
  | cons c t ih =>
    obtain ⟨hc, hn⟩ : '\n' ≠ c ∧ '\n' ∉ t := by simpa using hn
    cases t with
    | nil =>
      rw [lines]
      · rfl
      · exact hc.symm
      · simp
    | cons d t =>
      have hd : d ≠ '\n' := fun h => hn (by simp [h])
      exact lines_cons hc.symm (fun _ => by simpa using hd) (ih (by simp) hn)

/-- Lines joined by line feeds are cut apart again. -/
theorem lines_intercalate {ts : List (List Char)} (h : ∀ t ∈ ts, IsLine t) :
    lines (['\n'].intercalate ts) = ts := by
  induction ts with
  | nil => rfl
  | cons t ts ih =>
    obtain ⟨ht, hts⟩ := List.forall_mem_cons.1 h
    cases ts with
    | nil => simpa using lines_of_newline_not_mem ht.ne_nil ht.newline
    | cons u ts =>
      rw [List.intercalate_cons_cons, List.append_assoc, List.singleton_append,
        lines_append ht.newline ht.last, ih hts]

end Text

namespace Program

/-! ## Programs that were typed -/

/-- The program was read from a file, or typed line by line, or both. -/
inductive Built : Program → Prop
  | empty : Built {}
  | file {source : String} {p : Program} : ofSource source = .ok p → Built p
  | enter {p : Program} {text : String} {s : Statement} :
      Built p → '\n' ∉ text.toList → Statement.parse text = .ok s → Built (p.apply s).2

def Printable (p : Program) : Prop :=
  ∀ l ∈ p.lines, l.statement.Printable

theorem Printable.apply {p : Program} (hp : p.Printable) {s : Statement} (hs : s.Printable) :
    (p.apply s).2.Printable := by
  intro l hl
  rcases mem_of_mem_apply hl with hl | ⟨-, label, -, rfl⟩
  · exact hp l hl
  · exact hs.withLabel (some label)

theorem Printable.addText {last : Label} {p : Program} {text : List Char} {r : Label × Program}
    (hline : '\n' ∉ text) (h : addText last p text = .ok r) (hp : p.Printable) : r.2.Printable := by
  obtain ⟨s, hparse, hadds⟩ := adds_of_addText h
  have hs := Statement.printable_of_parse (by rwa [String.toList_ofList]) hparse
  cases hadds with
  | applied => exact hp.apply hs
  | skipped => exact hp
  | numbered =>
    intro l hl
    rcases mem_of_mem_insert hl with hl | rfl
    · exact hp l hl
    · exact hs.withLabel (some (last + 1))

/-- The lines of a program that was typed are printable, sound and in order. -/
theorem Built.printable {p : Program} (h : Built p) : p.Printable ∧ p.Sound ∧ p.Ascending := by
  induction h with
  | empty => exact ⟨by rintro l ⟨⟩, sound_empty, ascending_empty⟩
  | @file source p h =>
    refine ⟨?_, sound_of_ofSource h, ascending_of_ofSource h⟩
    exact of_ofSource (by rintro l ⟨⟩)
      (fun hmem => Printable.addText (Text.newline_not_mem_lines source.toList _ hmem)) h
  | @enter p text s _ hline hparse ih =>
    obtain ⟨hp, hsound, hasc⟩ := ih
    obtain ⟨hs, hrange⟩ := Statement.sound_of_parse hparse
    exact ⟨hp.apply (Statement.printable_of_parse hline hparse), hsound.apply hs hrange,
      (apply_alters p s).ascending hasc⟩

end Program

/-! ## The text of a line -/

theorem Statement.withLabel_eq {s : Statement} {l : Option Label} (h : s.label = l) :
    { s with label := l } = s := by
  obtain ⟨k, args, label⟩ := s
  cases h
  rfl

namespace Line

/-- The line, with a label that was written. -/
def stated (l : Line) : Line :=
  { l with written := true }

theorem parse_render {l : Line} (h : l.Sound) (hp : l.statement.Printable) :
    Statement.parse l.render = .ok l.statement := by
  have hsource : l.render = l.statement.source := by rw [render, Statement.source, h.label]
  rw [hsource]
  exact hp.parse_source_eq h.label h.range

theorem isLine_render {l : Line} (h : l.Sound) (hp : l.statement.Printable) :
    Text.IsLine l.render.toList := by
  obtain ⟨c, hc, hblank⟩ : Inked l.render := (hp.inked h.spelled).append _
  refine ⟨?_, ?_, ?_⟩
  · rintro hnil
    rw [hnil] at hc
    cases hc
  · rw [render, String.toList_append, String.toList_append, List.mem_append, List.mem_append]
    rintro ((hmem | hmem) | hmem)
    · exact absurd (Statement.isDigit_labelText (some l.label) '\n' hmem) (by decide)
    · exact absurd hmem (by decide)
    · exact hp.newline_not_mem hmem
  · rw [hc]
    rintro ⟨⟩
    exact absurd hblank (by decide)

end Line

/-! ## Reading a listing -/

namespace Program

theorem insert_of_lt {p : Program} {label : Label} (h : ∀ k ∈ p.lines, k.label < label) (s : Statement)
    (written : Bool) :
    (p.insert label s written).2 = ⟨p.lines ++ [⟨label, written, { s with label := some label }⟩]⟩ := by
  have hslot : p.slot? label = none :=
    List.findIdx?_eq_none_iff.2 (fun k hk => by simpa using Nat.ne_of_lt (h k hk))
  have hfree : p.freeSlot label = p.lines.length := by
    rw [freeSlot, List.takeWhile_eq_self_iff.2 (fun k hk => by simpa using h k hk)]
  rw [insert, hslot, hfree, List.insertIdx_length_self]

theorem addText_of_parse {text : List Char} {s : Statement} {label : Label}
    (h : Statement.parse (String.ofList text) = .ok s) (hlabel : s.label = some label) (last : Label)
    (p : Program) : addText last p text = .ok (label, (p.apply s).2) := by
  rw [addText, h]
  dsimp only [Except.mapError, bind, Except.bind]
  rw [hlabel]
  rfl

theorem addText_render {p : Program} {l : Line} (h : l.Sound) (hp : l.statement.Printable)
    (hlt : ∀ k ∈ p.lines, k.label < l.label) (last : Label) :
    addText last p l.render.toList = .ok (l.label, ⟨p.lines ++ [l.stated]⟩) := by
  have hparse : Statement.parse (String.ofList l.render.toList) = .ok l.statement := by
    rw [String.ofList_toList]
    exact l.parse_render h hp
  have hlabel : { l.statement with label := some l.label } = l.statement := Statement.withLabel_eq h.label
  rw [addText_of_parse hparse h.label, apply, h.label]
  dsimp only
  rw [if_neg h.spelled, insert_of_lt hlt, hlabel]
  rfl

/-- Lines in the order of their labels are added one behind the other. -/
theorem foldlM_addText {ls : List Line} {p : Program} (hs : ∀ l ∈ ls, l.Sound)
    (hp : ∀ l ∈ ls, l.statement.Printable) (h : ((p.lines ++ ls).map Line.label).Pairwise (· < ·))
    (last : Label) :
    ∃ last', (ls.map fun l => l.render.toList).foldlM (fun r text => addText r.1 r.2 text) (last, p) =
      Except.ok (last', ⟨p.lines ++ ls.map Line.stated⟩) := by
  induction ls generalizing p last with
  | nil => exact ⟨last, by simp; rfl⟩
  | cons l ls ih =>
    obtain ⟨hl, hs⟩ := List.forall_mem_cons.1 hs
    obtain ⟨hlp, hp⟩ := List.forall_mem_cons.1 hp
    have hlt : ∀ k ∈ p.lines, k.label < l.label := by
      rw [List.map_append, List.pairwise_append] at h
      exact fun k hk => h.2.2 _ (List.mem_map_of_mem hk) _ (by simp)
    obtain ⟨last', hfold⟩ := ih (p := ⟨p.lines ++ [l.stated]⟩) hs hp (by simpa [Line.stated] using h) l.label
    refine ⟨last', ?_⟩
    rw [List.map_cons, List.foldlM_cons, addText_render hl hlp hlt]
    show List.foldlM _ (l.label, _) _ = _
    rw [hfold, List.append_assoc]
    rfl

/-- The lines of a program that was typed, joined by line feeds as a file, hold the same program, with
all labels written. -/
theorem ofSource_intercalate {p : Program} (h : Built p) :
    ofSource ("\n".intercalate (p.lines.map Line.render)) = .ok ⟨p.lines.map Line.stated⟩ := by
  obtain ⟨hp, hs, hasc⟩ := h.printable
  have hlines : Text.lines ("\n".intercalate (p.lines.map Line.render)).toList =
      p.lines.map fun l => l.render.toList := by
    rw [String.toList_intercalate, List.map_map]
    refine Text.lines_intercalate (List.forall_mem_map.2 fun l hl => ?_)
    exact l.isLine_render (hs l hl) (hp l hl)
  obtain ⟨last, hfold⟩ := foldlM_addText (p := {}) hs hp hasc 0
  rw [← hlines] at hfold
  show Except.bind (List.foldlM (fun r text => addText r.1 r.2 text) (0, {}) _) _ = _
  rw [hfold]
  rfl

end Program

/-- What `LIST` shows of a program that was typed, joined by line feeds, is a file that holds the same
labels in the same order with the same statements. All labels are written now. -/
theorem Machine.ofSource_listed {m : Machine} (h : m.program.Built) (args : List Token)
    (label : Option Label) :
    ∃ texts q, exec ⟨.list, args, label⟩ m = .ok .next { m with events := m.events ++ texts.map .list } ∧
      Program.ofSource ("\n".intercalate texts) = .ok q ∧
      q.lines = m.program.lines.map fun l => { l with written := true } := by
  refine ⟨m.program.lines.map Line.render, _, ?_, Program.ofSource_intercalate h, rfl⟩
  rw [List.map_map]
  rfl

/-- Read from a file in which two lines have no label and a remark holds a carriage return, and then
changed. -/
def Program.sample : Program :=
  (((ofSource "PRINT \"A\"\r\n010 REM \"B\rC \r\r\nIF A><1 THEN GOTO 10").toOption.getD {}).apply
    ⟨.stop, [], some 5⟩).2

theorem Machine.ofSource_listed_sample :
    Program.sample.Built ∧
      Program.sample.lines.map Line.render =
        ["1 PRINT \"A\"", "5 END", "10 REM \"B\rC", "11 IF A <> 1 THEN GOTO 10"] ∧
      Program.sample.lines.map Line.written = [false, true, true, false] ∧
      ∃ texts q, exec ⟨.list, [], none⟩ { ofSeed 1 with program := Program.sample } =
          .ok .next { ofSeed 1 with program := Program.sample, events := texts.map .list } ∧
        Program.ofSource ("\n".intercalate texts) = .ok q ∧
        q.lines = Program.sample.lines.map fun l => { l with written := true } := by
  have hbuilt : Program.sample.Built := by
    unfold Program.sample
    refine @Program.Built.enter _ "5 END" _ ?_ (by decide) (by decide +kernel)
    cases hfile : Program.ofSource _ with
    | error e => exact .empty
    | ok p => exact .file hfile
  exact ⟨hbuilt, by decide +kernel, by decide +kernel,
    ofSource_listed (m := { ofSeed 1 with program := Program.sample }) hbuilt [] none⟩

end LineBasic
