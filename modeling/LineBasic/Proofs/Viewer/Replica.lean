import LineBasic.Debugger
import LineBasic.Proofs.Program.Store
import Mathlib.Data.Finset.Basic
import Mathlib.Data.Finset.Lattice.Lemmas

/-!
# What a viewer shows

A `Replica` is what a viewer can show: all it knows comes from the messages it was sent. The messages
of a snapshot make a replica of any program whose labels ascend (`receiveAll_add`), and the message of
a change makes that change (`receiveAll_changeMessage`).
-/
namespace LineBasic

structure Replica where
  lines : List (Label × String) := []
  breakpoints : Finset Label := ∅
  cursor : Option Nat := none
deriving DecidableEq

namespace Replica

def receive (r : Replica) : Message → Replica
  | .clear => {}
  | .add label text =>
    { r with
      lines := r.lines.takeWhile (·.1 < label) ++ (label, text) :: r.lines.dropWhile (·.1 < label) }
  | .update slot text => { r with lines := r.lines.modify slot fun line => (line.1, text) }
  | .remove slot => { r with lines := r.lines.eraseIdx slot }
  | .breakpoint label =>
    { r with
      breakpoints :=
        if label ∈ r.breakpoints then r.breakpoints.erase label else insert label r.breakpoints }
  | .cursor slot => { r with cursor := some slot }
  | .print => r

def receiveAll (r : Replica) (msgs : List Message) : Replica :=
  msgs.foldl receive r

theorem receiveAll_append (r : Replica) (msgs more : List Message) :
    r.receiveAll (msgs ++ more) = (r.receiveAll msgs).receiveAll more :=
  List.foldl_append

end Replica

/-- The lines of a program as a viewer shows them. -/
def Program.shown (p : Program) : List (Label × String) :=
  p.lines.map fun l => (l.label, l.statement.render)

namespace Replica

/-! ## Lines -/

/-- Lines added in ascending order come to stand behind one another. -/
theorem receiveAll_add (ls : List Line) (r : Replica)
    (hr : ∀ a ∈ r.lines, ∀ l ∈ ls, a.1 < l.label) (hls : (ls.map Line.label).Pairwise (· < ·)) :
    r.receiveAll (ls.map fun l => .add l.label l.statement.render) =
      { r with lines := r.lines ++ ls.map fun l => (l.label, l.statement.render) } := by
  induction ls generalizing r with
  | nil => simp [receiveAll]
  | cons l ls ih =>
    rw [List.map_cons, List.pairwise_cons] at hls
    obtain ⟨hl, hls⟩ := hls
    have hall : ∀ a ∈ r.lines, decide (a.1 < l.label) = true := by
      intro a ha
      simpa using hr a ha l (by simp)
    have hadd : r.receive (.add l.label l.statement.render) =
        { r with lines := r.lines ++ [(l.label, l.statement.render)] } := by
      rw [receive, List.takeWhile_eq_self_iff.2 hall, List.dropWhile_eq_nil_iff.2 hall]
    have hmore := ih { r with lines := r.lines ++ [(l.label, l.statement.render)] } ?_ hls
    · show (r.receive _).receiveAll _ = _
      rw [hadd, hmore]
      simp
    · intro a ha k hk
      rcases List.mem_append.1 ha with ha | ha
      · exact hr a ha k (by simp [hk])
      · cases List.mem_singleton.1 ha
        exact hl k.label (List.mem_map_of_mem hk)

/-- A text that takes the place of the one of a line does so in its slot. -/
theorem shown_set {p : Program} {i : Nat} {line : Line} (h : p.slot? line.label = some i) :
    p.shown.modify i (fun a => (a.1, line.statement.render)) = Program.shown ⟨p.lines.set i line⟩ := by
  obtain ⟨l, hl, hlabel⟩ := Program.label_of_slot? h
  rw [Program.shown, Program.shown, List.map_set, ← hlabel]
  refine List.ext_getElem? (fun j => ?_)
  rw [List.getElem?_modify, List.getElem?_set, List.length_map]
  by_cases hij : i = j
  · subst hij
    obtain ⟨hi, hget⟩ := List.getElem?_eq_some_iff.1 hl
    simp [hi, hget]
  · simp [hij]

/-- The message that tells of a change makes it. -/
theorem receiveAll_changeMessage {p q : Program} {c : Change} (h : Program.Alters p c q)
    (r : Replica) (hr : r.lines = p.shown) :
    r.receiveAll (Debugger.changeMessage? q c).toList = { r with lines := q.shown } := by
  cases h with
  | unchanged =>
    rw [← hr]
    rfl
  | added line hn =>
    have hline : Program.line? ⟨p.lines.insertIdx (p.freeSlot line.label) line⟩
        (p.freeSlot line.label) = some line :=
      List.getElem?_insertIdx_self.trans (if_pos (Program.freeSlot_le p line.label))
    rw [Debugger.changeMessage?, hline]
    show r.receive (.add line.label line.statement.render) = _
    rw [receive, hr, Program.shown, Program.shown, Program.insertIdx_freeSlot, List.takeWhile_map,
      List.dropWhile_map, List.map_append, List.map_cons]
    rfl
  | @updated i line hi =>
    have hline : Program.line? ⟨p.lines.set i line⟩ i = some line :=
      List.getElem?_set_self (Program.lt_size_of_slot? hi)
    rw [Debugger.changeMessage?, hline]
    show r.receive (.update i line.statement.render) = _
    rw [receive, hr, shown_set hi]
  | @removed i label hi =>
    show { r with lines := r.lines.eraseIdx i } = _
    rw [hr, Program.shown, List.eraseIdx_map]
    rfl

/-! ## Breakpoints -/

/-- Breakpoints told one after the other are all set. -/
theorem receiveAll_breakpoint (bs : List Label) (r : Replica) (hr : ∀ b ∈ bs, b ∉ r.breakpoints)
    (hbs : bs.Nodup) :
    r.receiveAll (bs.map .breakpoint) = { r with breakpoints := r.breakpoints ∪ bs.toFinset } := by
  induction bs generalizing r with
  | nil =>
    rw [List.toFinset_nil, Finset.union_empty]
    rfl
  | cons b bs ih =>
    rw [List.nodup_cons] at hbs
    obtain ⟨hb, hbs⟩ := hbs
    have hset : r.receive (.breakpoint b) = { r with breakpoints := insert b r.breakpoints } := by
      rw [receive, if_neg (hr b (by simp))]
    have hmore := ih { r with breakpoints := insert b r.breakpoints } ?_ hbs
    · show (r.receive _).receiveAll _ = _
      rw [hset, hmore, List.toFinset_cons, Finset.union_insert, Finset.insert_union]
    · intro c hc hmem
      rcases Finset.mem_insert.1 hmem with rfl | hmem
      · exact hb hc
      · exact hr c (by simp [hc]) hmem

end Replica

end LineBasic
