import LineBasic.Proofs.Machine.Fault
import LineBasic.Proofs.Machine.Input

/-!
# Failures leave no trace

A statement works out all that can go wrong before it changes anything, and an answer is queued only
when all of its values are known. So when one of them fails, nothing is left of it but its error and
the random numbers that it has drawn (`failure_traceless`).
-/
namespace LineBasic.Machine

variable {α β : Type}

/-! ## Actions -/

/-- If the action fails, it has changed no more than the generator. -/
def Traceless (x : ExecM α) : Prop :=
  ∀ m e n, x m = .error e n → ∃ g, n = { m with generator := g }

theorem Draws.traceless {x : ExecM α} (h : Draws x) : Traceless x := by
  intro m e n hx
  have hm := h m
  rwa [hx] at hm

/-- An action that cannot fail has nothing to undo. -/
theorem traceless_of_raises {x : ExecM α} (h : Raises [] x) : Traceless x := by
  intro m e n hx
  cases h m e n hx

/-- What comes before the first change may fail, and so may the change. -/
theorem Draws.bind_traceless {x : ExecM α} {f : α → ExecM β} (hx : Draws x)
    (hf : ∀ a, Traceless (f a)) : Traceless (x >>= f) := by
  intro m e o h
  cases hxm : x m with
  | error e' n =>
    rw [bind_of_error hxm] at h
    cases h
    exact hx.traceless m e o hxm
  | ok a n =>
    obtain ⟨g, hg⟩ := hx m
    rw [hxm] at hg
    rw [bind_of_ok hxm] at h
    obtain ⟨g', hg'⟩ := hf a n e o h
    exact ⟨g', by rw [hg', show n = _ from hg]⟩

/-- What comes after a change cannot fail. -/
theorem Traceless.bind {x : ExecM α} {f : α → ExecM β} (hx : Traceless x)
    (hf : ∀ a, Raises [] (f a)) : Traceless (x >>= f) := by
  intro m e o h
  cases hxm : x m with
  | error e' n =>
    rw [bind_of_error hxm] at h
    cases h
    exact hx m e o hxm
  | ok a n =>
    rw [bind_of_ok hxm] at h
    cases hf a n e o h

theorem draws_get {f : Machine → ExecM α} (h : ∀ m, Draws (f m)) : Draws (get >>= f) :=
  fun m => h m m

theorem draws_printed (ts : List Token) : Draws (printed ts) := by
  induction ts with
  | nil => exact draws_pure _
  | cons t ts ih =>
    have hitem : Draws (do let v ← value t; return toString v.toInt ++ (← printed ts) : ExecM String) :=
      (draws_value t).bind (fun _ => ih.bind (fun _ => draws_pure _))
    cases t with
    | quoted text => exact ih.bind (fun _ => draws_pure _)
    | _ => exact hitem

theorem draws_destination (k : Keyword) (ts : List Token) : Draws (destination k ts) := by
  unfold destination
  split
  · refine (draws_value _).bind (fun label => draws_get (fun m => ?_))
    cases m.program.jump? label with
    | none => exact draws_throw _
    | some slot => exact draws_pure _
  · exact draws_throw _

/-- A call that finds no room is not opened. -/
theorem traceless_openCall : Traceless openCall := by
  intro m e n h
  cases hp : m.calls.push m.back with
  | error e' =>
    rw [openCall_of_error hp] at h
    cases h
    exact ⟨m.generator, rfl⟩
  | ok calls =>
    rw [openCall_of_push hp] at h
    cases h

theorem traceless_closeCall : Traceless closeCall := by
  intro m e n h
  cases hp : m.calls.pop with
  | error e' =>
    rw [closeCall_of_error hp] at h
    cases h
    exact ⟨m.generator, rfl⟩
  | ok r =>
    rw [closeCall_of_pop hp] at h
    cases h

/-! ## Statements -/

/-- A sound statement that fails has only drawn random numbers. -/
theorem traceless_exec {s : Statement} (hs : s.Sound) : Traceless (exec s) := by
  induction hs with
  | @assign v e l hv he =>
    rw [exec]
    refine (draws_value e).bind_traceless (fun x => traceless_of_raises ?_)
    exact (raises_assign hv x).bind (fun _ => .pure _)
  | @print args l h =>
    rw [exec]
    refine (draws_printed args).bind_traceless (fun text => traceless_of_raises ?_)
    exact (raises_modify _ _).bind (fun _ => .pure _)
  | @input args l h =>
    rw [exec]
    refine traceless_of_raises (raises_get (fun m => raises_fill ?_))
    exact fun a ha => h a (List.mem_of_mem_drop ha)
  | @cond a b o s l ha hb _ ih =>
    rw [exec]
    refine (draws_value a).bind_traceless (fun x => (draws_value b).bind_traceless (fun y => ?_))
    cases o.holds x y with
    | false => exact traceless_of_raises (.pure _)
    | true => exact ih
  | @goto e l he =>
    rw [exec]
    exact (draws_destination _ _).bind_traceless (fun _ => traceless_of_raises (.pure _))
  | @gosub e l he =>
    rw [exec]
    refine (draws_destination _ _).bind_traceless (fun slot => ?_)
    exact traceless_openCall.bind (fun _ => .pure _)
  | @plain k args l hk =>
    cases k with
    | ret =>
      rw [exec]
      refine traceless_closeCall.bind (fun back => ?_)
      cases back <;> exact .pure _
    | clear | list =>
      rw [exec]
      exact traceless_of_raises ((raises_modify _ _).bind (fun _ => .pure _))
    | run | stop | remark | blank =>
      rw [exec]
      exact traceless_of_raises (.pure _)
    | print | assign | cond | goto | gosub | input => simp at hk

/-! ## Answers -/

/-- The answer is not a list of expressions, or one of them has no value. Those before it have. -/
inductive BadAnswer (m : Machine) (text : String) : Prop
  | unreadable {e : Error} (list : (lex text.toList).bind Expression.parseList = .error e)
  | valueless {before after : List Token} {t : Token} {vs : List Int16} {n o : Machine} {e : Error}
      (list : (lex text.toList).bind Expression.parseList = .ok (before ++ t :: after))
      (values : values before m = .ok vs n) (value : value t n = .error e o)

/-- The values of a list are found one by one, up to the first expression that has none. -/
theorem values_eq_error_iff {es : List Token} {m o : Machine} {e : Error} :
    values es m = .error e o ↔
      ∃ before t after vs n, es = before ++ t :: after ∧ values before m = .ok vs n ∧
        value t n = .error e o := by
  constructor
  · intro h
    induction es generalizing m with
    | nil => cases h
    | cons t es ih =>
      rw [values] at h
      cases ht : value t m with
      | error e' n =>
        rw [bind_of_error ht] at h
        cases h
        exact ⟨[], t, es, [], m, rfl, rfl, ht⟩
      | ok v n =>
        rw [bind_of_ok ht] at h
        cases hes : values es n with
        | ok vs n' =>
          rw [bind_of_ok hes] at h
          cases h
        | error e' n' =>
          rw [bind_of_error hes] at h
          cases h
          obtain ⟨before, u, after, vs, n'', rfl, hbefore, hu⟩ := ih hes
          refine ⟨t :: before, u, after, v :: vs, n'', rfl, ?_, hu⟩
          rw [values, bind_of_ok ht, bind_of_ok hbefore]
          rfl
  · rintro ⟨before, t, after, vs, n, rfl, hbefore, ht⟩
    induction before generalizing m vs with
    | nil =>
      cases hbefore
      exact bind_of_error ht
    | cons u before ih =>
      rw [values] at hbefore
      cases hu : value u m with
      | error e' n' =>
        rw [bind_of_error hu] at hbefore
        cases hbefore
      | ok v n' =>
        rw [bind_of_ok hu] at hbefore
        cases hvs : values before n' with
        | error e' n'' =>
          rw [bind_of_error hvs] at hbefore
          cases hbefore
        | ok vs' n'' =>
          rw [bind_of_ok hvs] at hbefore
          cases hbefore
          rw [List.cons_append, values, bind_of_ok hu]
          exact bind_of_error (ih _ hvs)

theorem badAnswer_iff {m : Machine} {text : String} :
    m.BadAnswer text ↔ ∃ e n, answerValues text m = .error e n := by
  unfold answerValues
  constructor
  · intro h
    cases h with
    | unreadable hlist =>
      rw [hlist]
      exact ⟨_, m, rfl⟩
    | valueless hlist hvs ht =>
      rw [hlist]
      exact ⟨_, _, values_eq_error_iff.2 ⟨_, _, _, _, _, rfl, hvs, ht⟩⟩
  · rintro ⟨e, n, h⟩
    cases hlist : (lex text.toList).bind Expression.parseList with
    | error e' => exact .unreadable hlist
    | ok es =>
      rw [hlist] at h
      obtain ⟨before, t, after, vs, n', rfl, hvs, ht⟩ := values_eq_error_iff.1 h
      exact .valueless hlist hvs ht

/-! ## Failures -/

/-- The machine when its run has ended with an error, and nothing else but the generator has changed. -/
def failedWith (m : Machine) (e : Error) (g : Random.Generator) : Machine :=
  { m with
    generator := g, events := m.events ++ [.error e], direct := none, filled := 0, status := .stopped }

/-- When a statement fails, or an answer is rejected, the run ends with one error. Program, variables, open
calls, answers and cursor are what they were. -/
theorem failure_traceless {m : Machine} (h : Reachable m) :
    (∀ s e n, m.isRunning = true → m.upcoming? = some s → exec s m = .error e n →
      ∃ g, m.step = m.failedWith (e.onLine s.label) g) ∧
    (∀ text, m.isWaiting = true →
      ((m.submit text).2.isRunning = false ↔ m.BadAnswer text) ∧
      (m.BadAnswer text → ∃ e g, (m.submit text).2 = m.failedWith e g)) := by
  refine ⟨fun s e n hr hs hx => ?_, fun text hw => ?_⟩
  · obtain ⟨g, rfl⟩ := traceless_exec (h.sound.upcoming hs) m e n hx
    exact ⟨g, by rw [step_eq_of_exec hr hs, hx]; rfl⟩
  · have hfails : m.BadAnswer text → ∃ e g, (m.submit text).2 = m.failedWith e g := by
      intro hbad
      obtain ⟨e, n, hx⟩ := badAnswer_iff.1 hbad
      obtain ⟨g, rfl⟩ := (draws_answerValues text).traceless m e n hx
      refine ⟨e.onLine m.upcomingLabel?, g, ?_⟩
      rw [submit_of_isWaiting hw, takeAnswer, hx]
      rfl
    refine ⟨⟨fun hstop => ?_, fun hbad => ?_⟩, hfails⟩
    · rw [badAnswer_iff]
      cases hx : answerValues text m with
      | error e n => exact ⟨e, n, rfl⟩
      | ok vs n =>
        rw [submit_of_isWaiting hw, takeAnswer, hx] at hstop
        cases hstop
    · obtain ⟨e, g, hm⟩ := hfails hbad
      rw [hm]
      rfl

/-- About to draw a number and to print two items, the second of which has no value. -/
def printing : Machine :=
  ((ofSeed 1).submit "10 IF RND(9) > 0 THEN PRINT 1, A").2.start

/-- An `INPUT` has one of its two answers. -/
def halfAnswered : Machine :=
  (((ofSeed 1).submit "10 INPUT A, B").2.start.step.submit "5").2.step

theorem failure_traceless_halfway :
    (printing.Reachable ∧ printing.isRunning = true ∧
      ∃ s e n, printing.upcoming? = some s ∧ exec s printing = .error e n ∧
        ∃ g, printing.step = printing.failedWith (e.onLine s.label) g) ∧
    halfAnswered.Reachable ∧ halfAnswered.isWaiting = true ∧ halfAnswered.filled = 1 ∧
      halfAnswered.memory.toList = [('A', 5)] ∧ halfAnswered.BadAnswer "6, A / 0" ∧
      ∃ e g, (halfAnswered.submit "6, A / 0").2 = halfAnswered.failedWith e g := by
  refine ⟨?printed, ?answered⟩
  case printed =>
    have h : printing.Reachable := ((Reachable.fresh (.ofSeed 1)).submit _).start
    have hr : printing.isRunning = true := by decide +kernel
    obtain ⟨s, hs⟩ : ∃ s, printing.upcoming? = some s := Option.isSome_iff_exists.1 (by decide +kernel)
    have hnone : (printing.upcoming?.bind fun s => (exec s).run' printing) = none := by decide +kernel
    rw [hs, Option.bind_some] at hnone
    delta EStateM.run' EStateM.run at hnone
    cases hx : exec s printing with
    | error e n => exact ⟨h, hr, s, e, n, hs, hx, (failure_traceless h).1 s e n hr hs hx⟩
    | ok q n =>
      rw [hx] at hnone
      cases hnone
  case answered =>
    have h : halfAnswered.Reachable := ((((Reachable.fresh (.ofSeed 1)).submit _).start.step).submit _).step
    have hw : halfAnswered.isWaiting = true := by decide +kernel
    obtain ⟨hiff, hfails⟩ := (failure_traceless h).2 "6, A / 0" hw
    have hbad := hiff.1 (by decide +kernel)
    exact ⟨h, hw, by decide +kernel, by decide +kernel, hbad, hfails hbad⟩

end LineBasic.Machine
