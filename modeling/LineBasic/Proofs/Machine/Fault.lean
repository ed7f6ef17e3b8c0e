import LineBasic.Proofs.Expression.Meaning
import LineBasic.Proofs.Machine.Sound
import LineBasic.Proofs.Statement.Refusal

/-!
# The errors that a machine may report

A sound statement fails in a few ways only (`Machine.failsUnder_exec`), and so does an answer. As
every statement of a reachable machine is sound and a text is refused for its syntax, the machine never
reports an error of its own (`Machine.reports_of_reachable`).
-/
namespace LineBasic

/-- The codes of the errors that may end a run. -/
def runCodes : List Error.Code :=
  [.uninitializedVariable, .divisionByZero, .illegalFunctionCall, .undefinedLabel,
    .returnWithoutGosub, .outOfMemory, .missingEnd, .malformedInput, .break]

namespace Machine

variable {α : Type}

/-! ## Actions -/

theorem fails_value {e : Token} (he : e.IsTree) : Fails (Error.Marked runCodes none) (value e) := by
  obtain ⟨tree, rfl⟩ := he
  intro m err n h
  unfold value at h
  rw [tree.evaluate_flat] at h
  cases hx : tree.value m.memory m.generator with
  | ok v g =>
    rw [hx] at h
    cases h
  | error err' g =>
    rw [hx] at h
    cases h
    obtain ⟨hcode, hlabel⟩ := tree.fails_value m.memory _ _ _ hx
    exact ⟨(by decide : Expression.errorCodes ⊆ runCodes) hcode, hlabel⟩

/-- There is a cell for every variable. -/
theorem write_eq_ok {name : Char} (h : name.isUpper = true) (memory : Memory) (v : Int16) :
    ∃ memory', memory.write name v = .ok memory' := by
  obtain ⟨i, hi⟩ := Memory.cell?_of_isUpper h
  rw [Memory.write, hi]
  exact ⟨_, rfl⟩

theorem isUpper_of_varName? {t : Token} {name : Char} (h : t.varName? = some name) :
    name.isUpper = true := by
  unfold Token.varName? at h
  split at h
  · exact (varName?_eq_some h).2
  · cases h

/-- A value can always be given to a variable. -/
theorem raises_assign {codes : List Error.Code} {t : Token} (ht : t.varName?.isSome = true) (v : Int16) :
    Raises codes (assign t v) := by
  obtain ⟨name, hname⟩ := Option.isSome_iff_exists.1 ht
  intro m e n h
  obtain ⟨memory, hmem⟩ := write_eq_ok (isUpper_of_varName? hname) m.memory v
  unfold assign at h
  rw [hname] at h
  dsimp only at h
  rw [get_bind, hmem] at h
  cases h

theorem fails_printed {ts : List Token} (h : ∀ a ∈ ts, (∃ text, a = .quoted text) ∨ a.IsTree) :
    Fails (Error.Marked runCodes none) (printed ts) := by
  fun_induction printed ts with
  | case1 => exact .pure _
  | case2 text ts ih => exact (ih (List.forall_mem_cons.1 h).2).bind (fun _ => .pure _)
  | case3 t ts hq ih =>
    obtain ⟨ht, hts⟩ := List.forall_mem_cons.1 h
    rcases ht with ⟨text, rfl⟩ | ht
    · exact absurd rfl (hq text)
    · exact (fails_value ht).bind (fun _ => (ih hts).bind (fun _ => .pure _))

theorem raises_modify (f : Machine → Machine) (codes : List Error.Code) :
    Raises codes (modify f : ExecM Unit) :=
  .modifyGet (fun m => ((), f m))

theorem fails_get {P : Error → Prop} {f : Machine → ExecM α} (h : ∀ m, Fails P (f m)) :
    Fails P (get >>= f) :=
  fun m => h m m

theorem raises_get {codes : List Error.Code} {f : Machine → ExecM α} (h : ∀ m, Raises codes (f m)) :
    Raises codes (get >>= f) :=
  fails_get h

theorem raises_fill {codes : List Error.Code} {ts : List Token}
    (h : ∀ a ∈ ts, a.varName?.isSome = true) : Raises codes (fill ts) := by
  induction ts with
  | nil => exact (raises_modify _ _).bind (fun _ => .pure _)
  | cons t ts ih =>
    obtain ⟨ht, hts⟩ := List.forall_mem_cons.1 h
    refine raises_get (fun m => ?_)
    cases m.inputs with
    | nil => exact .pure _
    | cons v inputs =>
      refine (raises_modify _ _).bind (fun _ => (raises_assign ht v).bind (fun _ => ?_))
      exact (raises_modify _ _).bind (fun _ => ih hts)

theorem fails_destination {e : Token} (he : e.IsTree) (k : Keyword) :
    Fails (Error.Marked runCodes none) (destination k [e]) := by
  refine (fails_value he).bind (fun label => fails_get (fun m => ?_))
  cases m.program.jump? label with
  | none => exact .throw (Error.Cause.marked (show Error.Code.undefinedLabel ∈ runCodes by decide))
  | some slot => exact .pure _

theorem fails_openCall : Fails (Error.Marked runCodes none) openCall := by
  refine fails_get (fun m => Fails.bind (.liftExcept (fun e he => ?_)) (fun _ => (raises_modify _ _).fails))
  unfold Stack.push at he
  split at he <;> cases he
  exact Error.Cause.marked (show Error.Code.outOfMemory ∈ runCodes by decide)

theorem fails_values {es : List Token} (h : ∀ e ∈ es, e.IsTree) :
    Fails (Error.Marked runCodes none) (values es) := by
  induction es with
  | nil => exact .pure _
  | cons e es ih =>
    obtain ⟨he, hes⟩ := List.forall_mem_cons.1 h
    exact (fails_value he).bind (fun _ => (ih hes).bind (fun _ => .pure _))

/-- An answer is malformed, or its expressions have values unless their evaluation fails. -/
theorem fails_answerValues (text : String) : Fails (Error.Marked runCodes none) (answerValues text) := by
  unfold answerValues
  cases hes : (lex text.toList).bind Expression.parseList with
  | error e => exact .throw (Error.Cause.marked (show Error.Code.malformedInput ∈ runCodes by decide))
  | ok es =>
    obtain ⟨ts, hlex, hlist⟩ := bind_eq_ok hes
    exact fails_values (Expression.isTree_of_readList hlist (isLexeme_of_lex hlex))

/-! ## Statements -/

/-- Like `Fails`, for a machine on which `P` holds of the error of returning without a call as well. -/
def FailsUnder (P : Error → Prop) (x : ExecM α) : Prop :=
  ∀ m, P { code := m.calls.underflow } → ∀ e n, x m = .error e n → P e

theorem failsUnder_of_fails {P : Error → Prop} {x : ExecM α} (h : Fails P x) : FailsUnder P x :=
  fun m _ => h m

theorem FailsUnder.bind {β : Type} {P : Error → Prop} {x : ExecM α} {f : α → ExecM β}
    (hx : Fails P x) (ht : Tacit x) (hf : ∀ a, FailsUnder P (f a)) : FailsUnder P (x >>= f) := by
  intro m hm e n h
  have hq := ht m
  cases hxm : x m with
  | error e' n' =>
    rw [bind_of_error hxm] at h
    cases h
    exact hx m e n hxm
  | ok a n' =>
    rw [hxm] at hq
    rw [bind_of_ok hxm] at h
    exact hf a n' (by rwa [show n'.calls = m.calls from hq.calls]) e n h

theorem failsUnder_closeCall_bind {P : Error → Prop} {f : ReturnPoint → ExecM α}
    (hf : ∀ back, Fails P (f back)) : FailsUnder P (closeCall >>= f) := by
  intro m hm e n h
  cases hp : m.calls.pop with
  | ok r =>
    rw [bind_of_ok (closeCall_of_pop hp)] at h
    exact hf r.1 _ e n h
  | error e' =>
    rw [bind_of_error (closeCall_of_error hp)] at h
    cases h
    unfold Stack.pop at hp
    split at hp <;> cases hp
    exact hm

/-- A sound statement fails with one of the codes of a run, and does not say on which line. -/
theorem failsUnder_exec {s : Statement} (hs : s.Sound) : FailsUnder (Error.Marked runCodes none) (exec s) := by
  induction hs with
  | @assign v e l hv he =>
    rw [exec]
    refine failsUnder_of_fails ((fails_value he).bind (fun x => Raises.fails ?_))
    exact (raises_assign hv x).bind (fun _ => .pure _)
  | @print args l h =>
    rw [exec]
    refine failsUnder_of_fails ((fails_printed h).bind (fun text => Raises.fails ?_))
    exact (raises_modify _ _).bind (fun _ => .pure _)
  | @input args l h =>
    rw [exec]
    refine failsUnder_of_fails (Raises.fails (raises_get (fun m => raises_fill ?_)))
    exact fun a ha => h a (List.mem_of_mem_drop ha)
  | @cond a b o s l ha hb _ ih =>
    -- what is evaluated first leaves the open calls alone
    rw [exec]
    refine .bind (fails_value ha) (tacit_basic.value a) (fun x => ?_)
    refine .bind (fails_value hb) (tacit_basic.value b) (fun y => ?_)
    cases o.holds x y with
    | false => exact failsUnder_of_fails (.pure _)
    | true => exact ih
  | @goto e l he =>
    rw [exec]
    exact failsUnder_of_fails ((fails_destination he _).bind (fun _ => .pure _))
  | @gosub e l he =>
    rw [exec]
    refine failsUnder_of_fails ((fails_destination he _).bind (fun slot => ?_))
    exact fails_openCall.bind (fun _ => .pure _)
  | @plain k args l hk =>
    cases k with
    | ret =>
      rw [exec]
      refine failsUnder_closeCall_bind (fun back => ?_)
      cases back <;> exact .pure _
    | clear | list =>
      rw [exec]
      exact failsUnder_of_fails (Raises.fails ((raises_modify _ _).bind (fun _ => .pure _)))
    | run | stop | remark | blank =>
      rw [exec]
      exact failsUnder_of_fails (.pure _)
    | print | assign | cond | goto | gosub | input => simp at hk

/-! ## Events -/

/-- Of every error that `n` has queued since `m`, `P` holds. -/
def Queues (P : Error → Prop) (m n : Machine) : Prop :=
  ∃ es, n.events = m.events ++ es ∧ ∀ e, Event.error e ∈ es → P e

section Queues

variable {P Q : Error → Prop} {m n o : Machine}

theorem queues_of_eq (h : n.events = m.events) : Queues P m n :=
  ⟨[], by rw [h, List.append_nil], by simp⟩

theorem Queues.trans (h : Queues P m n) (h' : Queues P n o) : Queues P m o := by
  obtain ⟨es, hes, hP⟩ := h
  obtain ⟨es', hes', hP'⟩ := h'
  refine ⟨es ++ es', by rw [hes', hes, List.append_assoc], fun e he => ?_⟩
  rcases List.mem_append.1 he with he | he
  · exact hP e he
  · exact hP' e he

theorem Queues.mono (h : Queues P m n) (hPQ : ∀ e, P e → Q e) : Queues Q m n := by
  obtain ⟨es, hes, hP⟩ := h
  exact ⟨es, hes, fun e he => hPQ e (hP e he)⟩

theorem Quiet.queues (h : Quiet m n) : Queues P m n := by
  obtain ⟨es, hes, hno⟩ := h.events
  exact ⟨es, hes, fun e he => absurd he (hno e)⟩

theorem abort_queues {e : Error} (h : P e) (m : Machine) : Queues P m (m.abort e) :=
  ⟨[.error e], rfl, fun e' he => by cases List.mem_singleton.1 he; exact h⟩

end Queues

theorem marked_programEnd (label : Option Label) :
    (Error.Cause.programEnd.error.onLine label).Marked runCodes label :=
  (Error.Cause.marked (by decide)).onLine label

theorem moveTo_queues (m : Machine) (slot : Nat) (label : Option Label) :
    Queues (Error.Marked runCodes label) m (m.moveTo slot label) := by
  unfold moveTo
  dsimp only
  split
  · exact queues_of_eq rfl
  · exact abort_queues (m := { m with cursor := slot }) (marked_programEnd label)

/-- Behind the last line the run fails on the line that led there. -/
theorem follow_queues (m : Machine) (label : Option Label) (q : Sequel) :
    Queues (Error.Marked runCodes label) m (m.follow label q) := by
  cases q with
  | next =>
    unfold follow
    by_cases hd : m.direct.isSome = true
    · rw [if_pos hd]
      exact queues_of_eq rfl
    · rw [if_neg hd]
      exact moveTo_queues m _ label
  | jump slot => exact moveTo_queues { m with direct := none } slot label
  | halt | restart | wait => exact queues_of_eq rfl

/-- A statement of a sound machine is executed with none but the errors of a run, on its own line. -/
theorem Sound.step_queues {m : Machine} (h : m.Sound) {s : Statement} (hr : m.isRunning = true)
    (hs : m.upcoming? = some s) : Queues (Error.Marked runCodes s.label) m m.step := by
  have hunderflow : Error.Marked runCodes none { code := m.calls.underflow } :=
    ⟨by rw [h.underflow]; decide, rfl⟩
  have hheeds := failsUnder_exec (h.upcoming hs) m hunderflow
  have hout := exec_outcome s m
  rw [step_eq_of_exec hr hs]
  generalize exec s m = r at hheeds hout
  cases hout with
  | went quiet => exact quiet.queues.trans (follow_queues _ _ _)
  | called quiet => exact quiet.queues.trans (follow_queues _ _ _)
  | returned quiet => exact quiet.queues.trans (follow_queues _ _ _)
  | cleared quiet => exact quiet.queues.trans (queues_of_eq rfl)
  | @failed e n quiet => exact quiet.queues.trans (abort_queues ((hheeds e n rfl).onLine s.label) n)

theorem Quiet.upcomingLabel?_eq {m n : Machine} (h : Quiet m n) : n.upcomingLabel? = m.upcomingLabel? := by
  rw [upcomingLabel?, upcomingLabel?, h.direct, h.program, h.cursor]

theorem takeAnswer_queues (m : Machine) (text : String) :
    Queues (Error.Marked runCodes m.upcomingLabel?) m (m.takeAnswer text) := by
  rcases takeAnswer_eq m text with ⟨n, vs, quiet, h⟩ | ⟨n, e, quiet, herror, h⟩ <;> rw [h]
  · exact quiet.queues.trans (queues_of_eq rfl)
  · have hmarked := (fails_answerValues text m e n herror).onLine n.upcomingLabel?
    rw [quiet.upcomingLabel?_eq] at hmarked ⊢
    exact quiet.queues.trans (abort_queues hmarked n)

theorem breakOff_queues (m : Machine) :
    Queues (Error.Marked runCodes m.upcomingLabel?) m m.breakOff := by
  have hmarked : (Error.Cause.interrupted.error.onLine m.upcomingLabel?).Marked runCodes m.upcomingLabel? :=
    (Error.Cause.marked (by decide)).onLine _
  unfold breakOff
  split
  · exact abort_queues hmarked m
  · exact queues_of_eq rfl

/-- The errors that `n` has queued since `m` have these codes. -/
def Reports (codes : List Error.Code) (m n : Machine) : Prop :=
  ∃ es, n.events = m.events ++ es ∧ ∀ e, Event.error e ∈ es → e.code ∈ codes

theorem Queues.reports {codes : List Error.Code} {label : Option Label} {m n : Machine}
    (h : Queues (Error.Marked codes label) m n) : Reports codes m n :=
  h.mono (fun _ he => he.1)

/-- A step of a sound machine reports none but the errors of a run. -/
theorem Sound.step_reports {m : Machine} (h : m.Sound) : Reports runCodes m m.step := by
  cases hr : m.isRunning with
  | false =>
    rw [step_of_not_isRunning hr]
    exact queues_of_eq rfl
  | true =>
    cases hs : m.upcoming? with
    | none =>
      rw [step, if_pos hr, hs]
      exact (abort_queues (marked_programEnd _) m).reports
    | some s => exact (h.step_queues hr hs).reports

theorem takeAnswer_reports (m : Machine) (text : String) : Reports runCodes m (m.takeAnswer text) :=
  (takeAnswer_queues m text).reports

theorem breakOff_reports (m : Machine) : Reports runCodes m m.breakOff :=
  (breakOff_queues m).reports

/-! ## Reachable machines -/

/-- No internal error is queued. -/
def Faultless (m : Machine) : Prop :=
  ∀ e, Event.error e ∈ m.events → e.code ≠ .internalError

theorem code_ne_of_mem_runCodes {code : Error.Code} (h : code ∈ runCodes) : code ≠ .internalError := by
  rintro rfl
  exact absurd h (by decide)

theorem code_ne_of_isSyntax {e : Error} (h : e.isSyntax = true) : e.code ≠ .internalError := by
  intro hc
  simp [Error.isSyntax, Error.kind, hc, Error.Code.kind] at h

theorem Reports.faultless {m n : Machine} (h : Reports runCodes m n) (hm : m.Faultless) :
    n.Faultless := by
  obtain ⟨es, hes, hcodes⟩ := h
  intro e he
  rw [hes] at he
  rcases List.mem_append.1 he with he | he
  · exact hm e he
  · exact code_ne_of_mem_runCodes (hcodes e he)

theorem Faultless.emit {m : Machine} (h : m.Faultless) {e : Error} (he : e.code ≠ .internalError) :
    (m.emit (.error e)).Faultless := by
  intro e' he'
  rcases List.mem_append.1 he' with he' | he'
  · exact h e' he'
  · cases List.mem_singleton.1 he'
    exact he

theorem Faultless.submit {m : Machine} (h : m.Faultless) (text : String) :
    (m.submit text).2.Faultless := by
  unfold Machine.submit
  split
  · exact (takeAnswer_reports m text).faultless h
  · unfold parse
    cases hs : Statement.parse text with
    | error e => exact h.emit (code_ne_of_isSyntax (Statement.rejects_parse text e hs))
    | ok s =>
      dsimp only
      unfold submitStatement
      split
      · exact h
      · split
        · exact h
        · split
          · exact h.emit (by simp [Error.Cause.error, Error.Cause.code])
          · exact h

theorem Faultless.fetch? {m : Machine} (h : m.Faultless) : m.fetch?.2.Faultless := by
  unfold Machine.fetch?
  split
  · exact h
  · next e es hes => exact fun e' he' => h e' (by rw [hes]; exact .tail _ he')

theorem Reachable.faultless {m : Machine} (h : Reachable m) : m.Faultless := by
  induction h with
  | fresh => simp [Faultless]
  | submit text _ ih => exact ih.submit text
  | load source _ hl ih =>
    obtain ⟨p, -, hl⟩ := bind_eq_ok hl
    cases hl
    exact ih
  | start _ ih => exact ih
  | step hm ih => exact hm.sound.step_reports.faultless ih
  | untilEvent steps hm ih =>
    refine (untilEvent_of_step (P := fun m => m.Sound ∧ m.Faultless) ?_ ?_ steps ⟨hm.sound, ih⟩).2
    · exact fun h => ⟨h.1.inherit (step_inherits _), h.1.step_reports.faultless h.2⟩
    · exact fun h => ⟨h.1.inherit (fetch?_inherits _), h.2.fetch?⟩
  | breakOff _ ih => exact (breakOff_reports _).faultless ih

/-- A run hands out the errors that were queued before it, and else none but those of a run. -/
theorem Sound.code_of_untilEvent {m : Machine} (h : m.Sound) {steps : Nat} {e : Error}
    (he : (m.untilEvent steps).1 = .error e) : Event.error e ∈ m.events ∨ e.code ∈ runCodes := by
  fun_induction untilEvent steps m with
  | case1 steps m e' n hf =>
    unfold fetch? at hf
    split at hf <;> cases hf
    next es hes =>
    left
    rw [hes, ← he]
    exact .head _
  | case5 m _ _ _ steps ih =>
    -- what the rest of the run hands out was queued before this step, by it or after it
    obtain ⟨es, hes, hcodes⟩ := h.step_reports
    rcases ih (h.inherit (step_inherits m)) he with hmem | hcode
    · rw [hes] at hmem
      rcases List.mem_append.1 hmem with hmem | hmem
      · exact .inl hmem
      · exact .inr (hcodes e hmem)
    · exact .inr hcode
  | case2 | case3 | case4 => cases he

/-- No error that a machine reports is an internal one, whatever text it was given. The errors of
statements that are executed, of answers and of breaking off are those of `runCodes`. -/
theorem reports_of_reachable {m : Machine} (h : Reachable m) :
    (∀ e, Event.error e ∈ m.events → e.code ≠ .internalError) ∧
      (∀ steps e, (m.untilEvent steps).1 = .error e →
        e.code ≠ .internalError ∧ (Event.error e ∉ m.events → e.code ∈ runCodes)) ∧
      (∀ source e, m.replaceProgram source = .error e → e.code ≠ .internalError) ∧
      Reports runCodes m m.step ∧ Reports runCodes m m.breakOff ∧
      ∀ text, m.isWaiting = true → Reports runCodes m (m.submit text).2 := by
  refine ⟨h.faultless, fun steps e he => ?_, fun source e he => ?_, h.sound.step_reports,
    breakOff_reports m, fun text hw => ?_⟩
  · rcases h.sound.code_of_untilEvent he with hmem | hcode
    · exact ⟨h.faultless e hmem, fun hnot => absurd hmem hnot⟩
    · exact ⟨code_ne_of_mem_runCodes hcode, fun _ => hcode⟩
  · have hrejects := (Program.rejects_ofSource source).bind (fun p => rejects_ok
      ({ m.forget with program := p, direct := none, cursor := 0, status := .stopped } : Machine))
    exact code_ne_of_isSyntax (hrejects e he)
  · rw [submit, if_pos hw]
    exact takeAnswer_reports m text

/-- About to divide by zero. -/
def dividing : Machine :=
  ((ofSeed 1).submit "10 IF RND(1) = 1 THEN LET A = 2 / 0").2.start

theorem reports_of_reachable_dividing :
    dividing.Reachable ∧ Reports runCodes dividing dividing.step ∧
      dividing.step.events = [.error ⟨.divisionByZero, some 10, ""⟩] := by
  have h : dividing.Reachable := ((Reachable.fresh (.ofSeed 1)).submit _).start
  exact ⟨h, (reports_of_reachable h).2.2.2.1, by decide +kernel⟩

end Machine

end LineBasic
