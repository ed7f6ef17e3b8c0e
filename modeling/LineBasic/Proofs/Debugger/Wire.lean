import LineBasic.Proofs.Debugger.Notice
import LineBasic.Proofs.Machine.Sound
import LineBasic.Proofs.Program.Listing
import LineBasic.Proofs.Viewer.Stream

/-!
# What a debugger writes to a viewer program

All text that a viewer is sent is that of stored lines, and the text of a stored line has a line feed
only if the line is a remark that was typed so. So a session's messages are read back from their stream
unless one of them carries such a remark (`decode_stream_of_written`).
-/
namespace LineBasic

/-! ## Typed programs -/

/-- The line is a remark with this text, which takes more than one line. -/
def Statement.BreaksLine (line text : String) : Prop :=
  ∃ s, parse line = .ok s ∧ s.isRemark = true ∧ s.render = text ∧ '\n' ∈ text.toList

theorem Statement.BreaksLine.newline_mem {line text : String} (h : BreaksLine line text) :
    '\n' ∈ line.toList := by
  obtain ⟨s, hparse, -, rfl, hmem⟩ := h
  exact (isRemark_of_newline_mem hparse hmem).2

namespace Program

/-- The program was read from a file, or typed line by line with some of these lines, or both. -/
inductive Typed (lines : List String) : Program → Prop
  | empty : Typed lines {}
  | file {source : String} {p : Program} : ofSource source = .ok p → Typed lines p
  | enter {p : Program} {line : String} {s : Statement} :
      Typed lines p → line ∈ lines → Statement.parse line = .ok s → Typed lines (p.apply s).2

variable {lines : List String} {p : Program}

theorem Typed.ascending (h : Typed lines p) : p.Ascending := by
  induction h with
  | empty => exact ascending_empty
  | file h => exact ascending_of_ofSource h
  | enter _ _ _ ih => exact (apply_alters _ _).ascending ih

/-- Only a remark that was typed with a line feed is stored with one. -/
theorem Typed.breaksLine (h : Typed lines p) : ∀ l ∈ p.lines, '\n' ∈ l.statement.render.toList →
    ∃ line ∈ lines, Statement.BreaksLine line l.statement.render := by
  induction h with
  | empty => rintro l ⟨⟩
  | file h =>
    intro l hl hmem
    exact absurd hmem ((Built.file h).printable.1 l hl).newline_not_mem
  | @enter p line s _ hline hparse ih =>
    intro l hl hmem
    rcases mem_of_mem_apply hl with hl | ⟨-, label, -, rfl⟩
    · exact ih l hl hmem
    · rw [Statement.render_label] at hmem ⊢
      exact ⟨line, hline, s, hparse, (Statement.isRemark_of_newline_mem hparse hmem).1, rfl, hmem⟩

theorem Typed.inherit {q : Program} (h : Typed lines p) (hq : q = p ∨ q = {}) : Typed lines q := by
  rcases hq with rfl | rfl
  · exact h
  · exact .empty

end Program

namespace Machine

variable {lines : List String} {m n : Machine}

theorem Advances.program (h : Advances m n) : n.program = m.program ∨ n.program = {} := by
  obtain ⟨k, rfl⟩ := h
  induction k with
  | zero => exact .inl rfl
  | succ k ih =>
    rcases (step_inherits (Nat.repeat Machine.step k m)).program with hp | hp
    · exact ih.imp hp.trans hp.trans
    · exact .inr hp

theorem submitStatement_typed {line : String} {s : Statement} (h : m.program.Typed lines)
    (hline : line ∈ lines) (hparse : Statement.parse line = .ok s) :
    (m.submitStatement s).2.program.Typed lines := by
  unfold submitStatement
  split
  · exact h.enter hline hparse
  · split
    · exact h
    · split <;> exact h

end Machine

namespace Debugger

section Programs

variable {V : Type} [Viewer V] {lines : List String} {d : Debugger V}

theorem revise_typed {line : String} {s : Statement} (h : d.machine.program.Typed lines)
    (hline : line ∈ lines) (hparse : Statement.parse line = .ok s) :
    (d.revise s).machine.program.Typed lines := by
  have hrevised : (d.machine.revise s).2.program.Typed lines := h.enter hline hparse
  rcases d.revise_machine s with he | he <;> rw [he]
  · exact hrevised
  · exact hrevised.inherit (Machine.Advances.refl _).skipRemarks.program

theorem submit_typed {text : String} (h : d.machine.program.Typed lines) (ht : text ∈ lines) :
    (d.submit text).2.machine.program.Typed lines := by
  have hsub := d.submit_submitted text
  generalize (d.submit text).2 = d' at hsub ⊢
  cases hsub with
  | answered =>
    rw [Machine.takeAnswer_program]
    exact h
  | refused => exact h
  | revised s hparse => exact revise_typed h ht hparse
  | direct s _ hparse => exact Machine.submitStatement_typed h ht hparse

/-- A request changes the program by the line that it gives, or loses it by a `CLEAR`. -/
theorem serve_typed {r : Request} (h : d.machine.program.Typed lines)
    (hr : ∀ text, r = .submit text → text ∈ lines) :
    (d.serve r).2.machine.program.Typed lines := by
  cases r with
  | begin =>
    have hstart : d.machine.start.program.Typed lines := h
    unfold serve beginSession
    dsimp only
    split
    · rw [tell_machine]
      exact hstart.inherit (Machine.Advances.refl _).skipRemarks.program
    · exact hstart
  | breakOff => exact h.inherit d.machine.breakOff_inherits.program
  | stepIn | stepOver | runToBreakpoint | runToSlot =>
    show (d.pursue _ _).machine.program.Typed lines
    rw [pursue_machine]
    exact h
  | stepOut force =>
    show (d.stepOut force).machine.program.Typed lines
    rw [stepOut_machine]
    exact h
  | toggle label =>
    show (d.toggle label).2.machine.program.Typed lines
    rw [toggle_machine]
    exact h
  | proceed steps =>
    obtain ⟨taken, ha, -⟩ := untilEvent_delivers steps d
    exact h.inherit ha.program
  | submit text => exact submit_typed h (hr text rfl)

end Programs

end Debugger

/-! ## Quotations -/

/-- All text in the message is that of a line of the program. -/
def Message.Quotes (p : Program) (msg : Message) : Prop :=
  ∀ text, msg.text? = some text → ∃ l ∈ p.lines, l.statement.render = text

theorem Message.quotes_of_text?_eq_none {msg : Message} (h : msg.text? = none) (p : Program) :
    msg.Quotes p := by
  intro text ht
  cases h.symm.trans ht

namespace Unsteady

theorem messages_of_connect {u v : Unsteady Recorder} {r : Except LinkFault Bool}
    (h : Viewer.connect u = (r, v)) : v.viewer.messages = u.viewer.messages := by
  obtain ⟨connected, rfl⟩ := eq_of_connect h
  rfl

theorem mem_of_mem_send {u : Unsteady Recorder} {m msg : Message}
    (h : msg ∈ (Viewer.send u m).2.viewer.messages) : msg ∈ u.viewer.messages ∨ msg = m := by
  by_cases hf : u.sends ∈ u.failSends
  · rw [send_of_mem hf] at h
    exact .inl h
  · cases hc : u.viewer.connected with
    | false => exact .inl (by simpa [Viewer.send, hf, hc] using h)
    | true =>
      rw [send_of_notMem hf hc] at h
      simpa using h

/-- A viewer has no messages but those it is sent. -/
theorem mem_of_mem_deliver {u : Unsteady Recorder} {msgs : List Message} {msg : Message}
    (h : msg ∈ (Viewer.deliver u msgs).viewer.messages) : msg ∈ u.viewer.messages ∨ msg ∈ msgs := by
  refine Viewer.deliver_of_send
    (P := fun v : Unsteady Recorder => msg ∈ v.viewer.messages → msg ∈ u.viewer.messages ∨ msg ∈ msgs)
    (fun m hm v hv hmem => ?_) (fun v hv => hv) .inl h
  rcases mem_of_mem_send hmem with hmem | rfl
  · exact hv hmem
  · exact .inr hm

end Unsteady

namespace Debugger

/-- The messages that the viewer was sent and took, the oldest first. -/
def sent (d : Debugger (Unsteady Recorder)) : List Message :=
  d.viewer.viewer.messages

variable {d d' : Debugger (Unsteady Recorder)} {lines : List String}

theorem sent_of_viewer (h : d'.viewer = d.viewer) : d'.sent = d.sent := by
  rw [sent, h, sent]

theorem quotes_snapshot (d : Debugger (Unsteady Recorder)) :
    ∀ msg ∈ d.snapshot, msg.Quotes d.machine.program := by
  intro msg hmsg
  simp only [snapshot, List.mem_append, List.mem_cons, List.mem_map, List.not_mem_nil, or_false] at hmsg
  rcases hmsg with ((rfl | ⟨l, hl, rfl⟩) | ⟨label, -, rfl⟩) | rfl | rfl
  case inl.inl.inr =>
    intro text ht
    exact ⟨l, hl, Option.some.inj ht⟩
  all_goals exact Message.quotes_of_text?_eq_none rfl _

theorem quotes_changeMessage (p : Program) (c : Change) :
    ∀ msg ∈ (changeMessage? p c).toList, msg.Quotes p := by
  intro msg hmsg text ht
  rw [Option.mem_toList] at hmsg
  cases c with
  | added i | updated i =>
    obtain ⟨l, hl, rfl⟩ := Option.map_eq_some_iff.1 hmsg
    exact ⟨l, List.mem_of_getElem? hl, Option.some.inj ht⟩
  | removed i =>
    cases hmsg
    cases ht
  | unchanged => cases hmsg

/-! ### Notices -/

/-- What a viewer has of a notice, it had before or was sent after it was connected. -/
theorem mem_of_connect {v : Unsteady Recorder} {c : Except LinkFault Bool} {msgs : List Message}
    {msg : Message} (hc : Viewer.connect d.viewer = (c, v))
    (h : msg ∈ (Viewer.deliver v msgs).viewer.messages) : msg ∈ d.sent ∨ msg ∈ msgs := by
  have hmem := Unsteady.mem_of_mem_deliver h
  rwa [Unsteady.messages_of_connect hc] at hmem

theorem quotes_tell {msgs : List Message} {p : Program} (hm : ∀ msg ∈ msgs, msg.Quotes p) :
    ∀ msg ∈ (d.tell msgs).sent, msg ∈ d.sent ∨ msg.Quotes p := by
  intro msg hmsg
  unfold tell at hmsg
  split at hmsg
  · next hc => exact (mem_of_connect hc hmsg).imp_right (hm msg)
  · next hc =>
    rw [sent, Unsteady.messages_of_connect hc] at hmsg
    exact .inl hmsg

theorem quotes_inform {changes : List Message}
    (hm : ∀ msg ∈ changes, msg.Quotes d.machine.program) :
    ∀ msg ∈ (d.inform changes).sent, msg ∈ d.sent ∨ msg.Quotes d.machine.program := by
  have hprint : ∀ msg ∈ changes ++ [.print], msg.Quotes d.machine.program := by
    intro msg hmsg
    rcases List.mem_append.1 hmsg with hmsg | hmsg
    · exact hm msg hmsg
    · rw [List.mem_singleton.1 hmsg]
      exact Message.quotes_of_text?_eq_none rfl _
  intro msg hmsg
  unfold inform at hmsg
  split at hmsg
  · next hc => exact (mem_of_connect hc hmsg).imp_right (d.quotes_snapshot msg)
  · next hc => exact (mem_of_connect hc hmsg).imp_right (hprint msg)
  · next hc =>
    rw [sent, Unsteady.messages_of_connect hc] at hmsg
    exact .inl hmsg

/-- All text that a request makes the debugger send is that of stored lines. -/
theorem Effect.quotes {r : Request} (h : Effect d r d') :
    ∀ msg ∈ d'.sent, msg ∈ d.sent ∨ msg.Quotes d'.machine.program := by
  cases h with
  | quiet hv =>
    rw [sent_of_viewer hv]
    exact fun msg => .inl
  | begun _ hv =>
    rw [← sent_of_viewer hv, tell_machine]
    exact quotes_tell (quotes_snapshot _)
  | toggled label =>
    rw [inform_machine]
    exact quotes_inform (by simpa using Message.quotes_of_text?_eq_none rfl _)
  | @edited text s e _ he =>
    have hv : e.viewer = d.viewer := by rw [he]
    rw [← sent_of_viewer hv, inform_machine]
    refine quotes_inform (fun msg hmsg => ?_)
    rcases List.mem_append.1 hmsg with hmsg | hmsg
    · exact quotes_changeMessage _ _ msg hmsg
    · rw [List.mem_singleton.1 hmsg]
      exact Message.quotes_of_text?_eq_none rfl _
  | @paused steps e es _ _ hv =>
    rw [← sent_of_viewer hv]
    exact quotes_inform (by simpa using Message.quotes_of_text?_eq_none rfl _)
  | ended _ hv ht =>
    rw [sent_of_viewer ht, ← sent_of_viewer hv]
    refine quotes_tell (fun msg hmsg => Message.quotes_of_text?_eq_none ?_ _)
    obtain rfl | rfl : msg = .clear ∨ msg = .print := by simpa using hmsg
    · rfl
    · rfl

/-! ## Sessions -/

/-- A debugger with a viewer that is new to it, after any requests that give it no lines but these, and with
the viewer closed at any time. Any attempts to connect to the viewer and any messages to it may fail. -/
inductive Written (lines : List String) : Debugger (Unsteady Recorder) → Prop
  | fresh {m : Machine} {u : Unsteady Recorder} :
      m.program.Typed lines → u.viewer.messages = [] → Written lines { machine := m, viewer := u }
  | serve {d : Debugger (Unsteady Recorder)} (r : Request) :
      Written lines d → (∀ text, r = .submit text → text ∈ lines) → Written lines (d.serve r).2
  | close {d : Debugger (Unsteady Recorder)} :
      Written lines d → Written lines { d with viewer := Viewer.close d.viewer }

theorem Written.typed (h : Written lines d) : d.machine.program.Typed lines := by
  induction h with
  | fresh hm => exact hm
  | serve r _ hr ih => exact serve_typed ih hr
  | close _ ih => exact ih

theorem Written.orderly (h : Written lines d) : Orderly d := by
  induction h with
  | fresh hm => exact ⟨hm.ascending, .nil, nofun, nofun⟩
  | serve r _ _ ih => exact ih.serve r
  | close _ ih => exact ih.withViewer _

/-- Only a remark that was typed with a line feed is sent with one. -/
theorem Written.breaksLine (h : Written lines d) : ∀ msg ∈ d.sent, ∀ text, msg.text? = some text →
    '\n' ∈ text.toList → ∃ line ∈ lines, Statement.BreaksLine line text := by
  induction h with
  | fresh _ hu =>
    intro msg hmsg
    rw [sent, hu] at hmsg
    cases hmsg
  | serve r h hr ih =>
    intro msg hmsg text ht hmem
    rcases (serve_effect h.orderly r).quotes msg hmsg with hmsg | hquotes
    · exact ih msg hmsg text ht hmem
    · obtain ⟨l, hl, rfl⟩ := hquotes text ht
      exact (h.serve r hr).typed.breaksLine l hl hmem
  | close _ ih => exact ih

/-- The messages of a session are read back from their stream if and only if none of them carries a remark
that was typed with a line feed. So they are if no line was. -/
theorem decode_stream_of_written (h : Written lines d) :
    (Message.decode (Message.stream d.sent) = d.sent.map some ↔
      ∀ msg ∈ d.sent, ∀ text, msg.text? = some text → ∀ line ∈ lines, ¬ Statement.BreaksLine line text) ∧
    ((∀ line ∈ lines, '\n' ∉ line.toList) →
      Message.decode (Message.stream d.sent) = d.sent.map some) := by
  have hiff : Message.decode (Message.stream d.sent) = d.sent.map some ↔
      ∀ msg ∈ d.sent, ∀ text, msg.text? = some text → ∀ line ∈ lines, ¬ Statement.BreaksLine line text := by
    rw [Message.decode_stream_iff]
    constructor
    · rintro hone msg hmsg text ht line - ⟨s, -, -, -, hmem⟩
      exact hone msg hmsg (Message.newline_mem_render.2 ⟨text, ht, hmem⟩)
    · intro hnone msg hmsg hmem
      obtain ⟨text, ht, hmem⟩ := Message.newline_mem_render.1 hmem
      obtain ⟨line, hline, hbreaks⟩ := h.breaksLine msg hmsg text ht hmem
      exact hnone msg hmsg text ht line hline hbreaks
  refine ⟨hiff, fun hlines => hiff.2 ?_⟩
  intro msg hmsg text ht line hline hbreaks
  exact hlines line hline hbreaks.newline_mem

/-- A remark that reads like messages, and a string with colons. -/
theorem decode_stream_of_written_lookalikes :
    ∃ d, Written ["10 PRINT \"c:0\"", "5 REM print:clear"] d ∧
      d.sent = [.clear, .add 10 "PRINT \"c:0\"", .cursor 0, .print,
        .add 5 "REM print:clear", .cursor 1, .print] ∧
      Message.decode (Message.stream d.sent) = d.sent.map some := by
  have h0 : Written ["10 PRINT \"c:0\"", "5 REM print:clear"]
      { machine := Machine.ofSeed 1, viewer := { viewer := {} } } := .fresh .empty rfl
  have h1 := (h0.serve (.submit "10 PRINT \"c:0\"") (by simp)).serve .begin nofun
  have h2 := h1.serve (.submit "5 REM print:clear") (by simp)
  exact ⟨_, h2, by decide +kernel, (decode_stream_of_written h2).2 (by decide)⟩

/-- A remark that was typed with a line feed passes for two messages. -/
theorem decode_stream_ne_of_remark :
    ∃ d, Written ["10 END", "5 REM a\nprint"] d ∧
      d.sent = [.clear, .add 10 "END", .cursor 0, .print, .add 5 "REM a\nprint", .cursor 1, .print] ∧
      Message.decode (Message.stream d.sent) =
        [some .clear, some (.add 10 "END"), some (.cursor 0), some .print,
          some (.add 5 "REM a"), some .print, some (.cursor 1), some .print] ∧
      Message.decode (Message.stream d.sent) ≠ d.sent.map some := by
  have h0 : Written ["10 END", "5 REM a\nprint"]
      { machine := Machine.ofSeed 1, viewer := { viewer := {} } } := .fresh .empty rfl
  have h1 := (h0.serve (.submit "10 END") (by simp)).serve .begin nofun
  have h2 := h1.serve (.submit "5 REM a\nprint") (by simp)
  exact ⟨_, h2, by decide +kernel, by decide +kernel, by decide +kernel⟩

end Debugger

end LineBasic
