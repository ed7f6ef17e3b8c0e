import LineBasic.Proofs.Machine.Walker
import LineBasic.Proofs.Machine.WellFormed
import LineBasic.Proofs.Program.Table

/-!
# Slots and labels name the same run

The slots that a machine keeps stand for labels: the cursor for that of its line, and the return point
of a call for that of the line before, in which the call was opened. `Machine.walker` reads a machine
this way. What happens to a run commutes with it (`Walking.act`), so a machine that was started shows
the same lines, events and variables as the walker (`start_refines_walk`).
-/
namespace LineBasic

theorem Stack.items_of_push {α : Type} {s t : Stack α} {a : α} (h : s.push a = .ok t) :
    t.items = a :: s.items ∧ s.size < capacity ∧ t.overflow = s.overflow := by
  unfold push at h
  split at h
  · next hlt =>
    cases h
    exact ⟨rfl, hlt, rfl⟩
  · cases h

theorem Stack.error_of_push {α : Type} {s : Stack α} {a : α} {e : Error} (h : s.push a = .error e) :
    ¬ s.size < capacity ∧ e = (Error.Cause.stackFull s.overflow).error := by
  unfold push at h
  split at h
  · cases h
  · next hlt =>
    cases h
    exact ⟨hlt, rfl⟩

theorem Stack.items_of_pop {α : Type} {s t : Stack α} {a : α} (h : s.pop = .ok (a, t)) :
    s.items = a :: t.items ∧ t.overflow = s.overflow := by
  unfold pop at h
  split at h
  · cases h
  · next hitems =>
    cases h
    exact ⟨hitems, rfl⟩

theorem Stack.error_of_pop {α : Type} {s : Stack α} {e : Error} (h : s.pop = .error e) :
    s.items = [] ∧ e = { code := s.underflow } := by
  unfold pop at h
  split at h
  · next hitems =>
    cases h
    exact ⟨hitems, rfl⟩
  · cases h

namespace Program

/-! ## Labels in ascending order -/

theorem min?_of_pairwise {ls : List Label} (h : ls.Pairwise (· < ·)) : ls.min? = ls.head? := by
  cases ls with
  | nil => rfl
  | cons a ls =>
    refine List.min?_eq_some_iff.2 ⟨List.mem_cons_self, fun b hb => ?_⟩
    rcases List.mem_cons.1 hb with rfl | hb
    · exact Nat.le_refl _
    · exact Nat.le_of_lt ((List.pairwise_cons.1 h).1 b hb)

theorem filter_lt_of_getElem? {ls : List Label} (h : ls.Pairwise (· < ·)) {i : Nat} {x : Label}
    (hx : ls[i]? = some x) : ls.filter (x < ·) = ls.drop (i + 1) := by
  induction ls generalizing i with
  | nil => cases hx
  | cons a ls ih =>
    obtain ⟨ha, hls⟩ := List.pairwise_cons.1 h
    cases i with
    | zero =>
      cases hx
      rw [List.filter_cons_of_neg (by simp), List.drop_succ_cons, List.drop_zero, List.filter_eq_self]
      simpa using ha
    | succ i =>
      have hlt := ha x (List.mem_of_getElem? hx)
      rw [List.filter_cons_of_neg (by simpa using Nat.le_of_lt hlt), ih hls hx, List.drop_succ_cons]

/-- The line after a line has the least label above that of the line. -/
theorem above?_of_line? {p : Program} (h : p.Ascending) {i : Nat} {l : Line} (hl : p.line? i = some l) :
    p.above? l.label = (p.line? (i + 1)).map Line.label := by
  have hlabels : p.labels.Pairwise (· < ·) := h
  rw [above?, filter_lt_of_getElem? hlabels (getElem?_labels hl),
    min?_of_pairwise (hlabels.sublist (List.drop_sublist _ _)), List.head?_drop]
  exact List.getElem?_map

theorem least?_eq {p : Program} (h : p.Ascending) : p.least? = (p.line? 0).map Line.label := by
  have hlabels : p.labels.Pairwise (· < ·) := h
  rw [least?, min?_of_pairwise hlabels, List.head?_eq_getElem?]
  exact List.getElem?_map

theorem labelled?_of_line? {p : Program} (h : p.Ascending) {i : Nat} {l : Line}
    (hl : p.line? i = some l) : p.labelled? l.label = some l := by
  have hmem := List.mem_of_getElem? hl
  cases hf : p.labelled? l.label with
  | none => exact absurd (decide_eq_true rfl) (List.find?_eq_none.1 hf l hmem)
  | some k =>
    have hlabel : k.label = l.label := by simpa using List.find?_some hf
    rw [h.eq_of_label (List.mem_of_find?_eq_some hf) hmem hlabel]

/-- A jump leads to the line that has the label of its slot. -/
theorem target?_eq {p : Program} (h : p.Ascending) (hs : p.Sound) (n : Int16) :
    p.target? n = (p.jump? n).bind fun i => (p.line? i).map Line.label := by
  cases hj : p.jump? n with
  | some i =>
    obtain ⟨-, l, hl, hlabel, hw⟩ := (jump?_eq_some_iff h).1 hj
    rw [Option.bind_some, hl, target?]
    cases hf : p.lines.find? fun l => l.written ∧ (l.label : Int) = n.toInt with
    | none =>
      exact absurd (decide_eq_true ⟨hw, hlabel⟩) (List.find?_eq_none.1 hf l (List.mem_of_getElem? hl))
    | some k =>
      have hk : k.written = true ∧ (k.label : Int) = n.toInt := by simpa using List.find?_some hf
      rw [Option.map_some, Option.map_some, Int.ofNat.inj (hk.2.trans hlabel.symm)]
  | none =>
    rw [Option.bind_none, target?, Option.map_eq_none_iff, List.find?_eq_none]
    intro l hl hwl
    have hwl : l.written = true ∧ (l.label : Int) = n.toInt := by simpa using hwl
    obtain ⟨i, hi⟩ := List.mem_iff_getElem?.1 hl
    have hpos : (1 : Int16) ≤ n := by
      have := (hs l hl).range.1
      rw [Int16.le_iff_toInt_le, ← hwl.2]
      exact Int.ofNat_le.2 this
    have := (jump?_eq_some_iff h).2 ⟨hpos, l, hi, hwl.2, hwl.1⟩
    rw [hj] at this
    cases this

/-- The label of the line in which a call was opened that returns here. -/
def caller (p : Program) : ReturnPoint → Label
  | .slot (i + 1) => ((p.line? i).map Line.label).getD 0
  | _ => 0

end Program

namespace Machine

open Walker (WalkM lift)

variable {α : Type}

/-! ## Reading slots as labels -/

/-- The stage of a machine that executes no direct statement. -/
def stage (m : Machine) : Stage :=
  match m.status, (m.program.line? m.cursor).map Line.label with
  | .running, some x => .running x
  | .waiting, some x => .waiting x
  | _, _ => .stopped

def walker (m : Machine) : Walker where
  generator := m.generator
  program := m.program
  memory := m.memory
  calls := m.calls.items.map m.program.caller
  inputs := m.inputs
  filled := m.filled
  stage := m.stage
  events := m.events

/-- The machine executes its program, with no direct statement involved: its cursor is on a line, and
so is that of every open call. -/
structure Walking (m : Machine) : Prop where
  ascending : m.program.Ascending
  sound : m.Sound
  direct : m.direct = none
  cursor : m.isActive = true → m.cursor < m.program.size
  calls : ∀ back ∈ m.calls.items, ∃ i < m.program.size, back = .slot (i + 1)
  overflow : m.calls.overflow = "TOO MANY NESTED GOSUBS"

/-! ## Stages -/

theorem stage_of_none {m : Machine} (h : m.program.line? m.cursor = none) : m.stage = .stopped := by
  unfold stage
  rw [h]
  cases m.status <;> rfl

theorem stage_of_running {m : Machine} (hs : m.status = .running) {l : Line}
    (hl : m.program.line? m.cursor = some l) : m.stage = .running l.label := by
  rw [stage, hs, hl]
  rfl

theorem stage_of_waiting {m : Machine} (hs : m.status = .waiting) {l : Line}
    (hl : m.program.line? m.cursor = some l) : m.stage = .waiting l.label := by
  rw [stage, hs, hl]
  rfl

theorem stage_of_stopped {m : Machine} (hs : m.status = .stopped) : m.stage = .stopped := by
  rw [stage, hs]

/-- Where the machine is, by slot and by label. -/
inductive Staged (m : Machine) : Prop
  | stopped (status : m.status = .stopped) (stage : m.walker.stage = .stopped)
  | running {l : Line} (status : m.status = .running) (line : m.program.line? m.cursor = some l)
      (stage : m.walker.stage = .running l.label)
  | waiting {l : Line} (status : m.status = .waiting) (line : m.program.line? m.cursor = some l)
      (stage : m.walker.stage = .waiting l.label)

theorem Walking.staged {m : Machine} (h : m.Walking) : m.Staged := by
  cases hs : m.status with
  | stopped => exact .stopped hs (stage_of_stopped hs)
  | running =>
    have hl : m.program.line? m.cursor = some _ :=
      List.getElem?_eq_getElem (h.cursor (by simp [isActive, hs]))
    exact .running hs hl (stage_of_running hs hl)
  | waiting =>
    have hl : m.program.line? m.cursor = some _ :=
      List.getElem?_eq_getElem (h.cursor (by simp [isActive, hs]))
    exact .waiting hs hl (stage_of_waiting hs hl)

theorem Walking.upcomingLabel? {m : Machine} (h : m.Walking) {l : Line}
    (hl : m.program.line? m.cursor = some l) : m.upcomingLabel? = some l.label := by
  rw [Machine.upcomingLabel?, h.direct, hl]
  rfl

/-! ## Actions on data -/

/-- The machine without its program and its place in it. -/
def data (m : Machine) : Machine :=
  m.walker.machine

/-- The machine with the data of another. -/
def withData (m n : Machine) : Machine :=
  { m with generator := n.generator, memory := n.memory, inputs := n.inputs, filled := n.filled,
           events := n.events }

def inside (m : Machine) : EStateM.Result Error Machine α → EStateM.Result Error Machine α
  | .ok a n => .ok a (m.withData n)
  | .error e n => .error e (m.withData n)

/-- The action neither reads nor changes more than data. -/
def Local (x : ExecM α) : Prop :=
  ∀ m, x m = inside m (x m.data)

theorem local_pure (a : α) : Local (pure a : ExecM α) :=
  fun _ => rfl

theorem local_throw (e : Error) : Local (throw e : ExecM α) :=
  fun _ => rfl

theorem local_liftExcept (x : Except Error α) : Local (liftExcept x : ExecM α) := by
  cases x with
  | ok a => exact local_pure a
  | error e => exact local_throw e

theorem local_modify {f : Machine → Machine} (hf : ∀ m, f m = m.withData (f m.data)) :
    Local (modify f) := by
  intro m
  exact congrArg (EStateM.Result.ok ()) (hf m)

theorem local_get {f : Machine → ExecM α} (hf : ∀ m, Local (f m)) (hread : ∀ m, f m = f m.data) :
    Local (get >>= f) := by
  intro m
  rw [get_bind, get_bind, hread m]
  exact hf m.data m

theorem Local.bind {β : Type} {x : ExecM α} {f : α → ExecM β} (hx : Local x) (hf : ∀ a, Local (f a)) :
    Local (x >>= f) := by
  intro m
  have hm := hx m
  cases hd : x m.data with
  | error e n =>
    rw [hd] at hm
    rw [bind_of_error hd, bind_of_error hm]
    rfl
  | ok a n =>
    rw [hd] at hm
    rw [bind_of_ok hd, bind_of_ok hm, hf a (m.withData n), hf a n]
    show inside (m.withData n) (f a n.data) = _
    cases f a n.data <;> rfl

theorem local_value (e : Token) : Local (value e) := by
  intro m
  unfold value
  rw [show m.data.memory = m.memory from rfl, show m.data.generator = m.generator from rfl]
  cases Expression.evaluate m.memory e m.generator <;> rfl

theorem local_assign (t : Token) (v : Int16) : Local (assign t v) := by
  unfold assign
  cases t.varName? with
  | none => exact local_throw _
  | some name =>
    refine local_get (fun m => ?_) (fun m => rfl)
    exact (local_liftExcept _).bind (fun memory => local_modify (fun m => rfl))

theorem local_printed (ts : List Token) : Local (printed ts) := by
  fun_induction printed ts with
  | case1 => exact local_pure _
  | case2 text ts ih => exact ih.bind (fun _ => local_pure _)
  | case3 t ts _ ih => exact (local_value t).bind (fun _ => ih.bind (fun _ => local_pure _))

theorem local_fill (ts : List Token) : Local (fill ts) := by
  induction ts with
  | nil => exact (local_modify (fun m => rfl)).bind (fun _ => local_pure _)
  | cons t ts ih =>
    refine local_get (fun m => ?_) (fun m => rfl)
    cases m.inputs with
    | nil => exact local_pure _
    | cons v inputs =>
      refine (local_modify (fun m => rfl)).bind (fun _ => ?_)
      exact (local_assign t v).bind (fun _ => (local_modify (fun m => rfl)).bind (fun _ => ih))

theorem local_answerValues (text : String) : Local (answerValues text) := by
  have hvalues : ∀ es, Local (values es) := by
    intro es
    induction es with
    | nil => exact local_pure _
    | cons e es ih => exact (local_value e).bind (fun _ => ih.bind (fun _ => local_pure _))
  unfold answerValues
  cases (lex text.toList).bind Expression.parseList with
  | ok es => exact hvalues es
  | error e => exact local_throw _

/-- The action is local, and leads to the next line or waits. -/
structure Onward (x : ExecM Sequel) : Prop where
  isLocal : Local x
  sequel : ∀ {m q n}, x m = .ok q n → q = .next ∨ q = .wait

theorem onward_next : Onward (pure .next) where
  isLocal := local_pure _
  sequel := by
    intro m q n h
    cases h
    exact .inl rfl

theorem onward_throw (e : Error) : Onward (throw e) where
  isLocal := local_throw e
  sequel := by
    intro m q n h
    cases h

theorem Local.bind_onward {x : ExecM α} {f : α → ExecM Sequel} (hx : Local x) (hf : ∀ a, Onward (f a)) :
    Onward (x >>= f) where
  isLocal := hx.bind (fun a => (hf a).isLocal)
  sequel := by
    intro m q n h
    cases hm : x m with
    | error e n' =>
      rw [bind_of_error hm] at h
      cases h
    | ok a n' =>
      rw [bind_of_ok hm] at h
      exact (hf a).sequel h

theorem onward_input (args : List Token) (l : Option Label) : Onward (exec ⟨.input, args, l⟩) where
  isLocal := local_get (fun m => local_fill _) (fun m => rfl)
  sequel := by
    intro m q n h
    have hfills := fill_fills (args.drop m.filled) m
    rw [show fill (args.drop m.filled) m = .ok q n from h] at hfills
    cases hfills with
    | done => exact .inl rfl
    | wait => exact .inr rfl

/-! ## Statements -/

/-- Where a walk goes on if the machine goes on like this. -/
def course (m : Machine) : Sequel → Course
  | .next => .go ((m.program.line? (m.cursor + 1)).map Line.label)
  | .jump slot => .go ((m.program.line? slot).map Line.label)
  | .halt => .halt
  | .restart => .restart
  | .wait => .wait

/-- The outcome of a statement, read as that of a walk. -/
def walked : EStateM.Result Error Machine Sequel → EStateM.Result Error Walker Course
  | .ok q m => .ok (m.course q) m.walker
  | .error e m => .error e m.walker

/-- A machine still executes its program if it has opened no call and its cursor is on a line. -/
theorem Walking.keep {m n : Machine} (h : m.Walking) (hp : n.program = m.program) (hd : n.direct = none)
    (hcursor : n.isActive = true → n.cursor < n.program.size)
    (hcalls : ∀ back ∈ n.calls.items, back ∈ m.calls.items) (ho : n.calls.overflow = m.calls.overflow)
    (hu : n.calls.underflow = m.calls.underflow) : n.Walking where
  ascending := hp ▸ h.ascending
  sound := h.sound.inherit ⟨.inl hp, .inr hd, hu⟩
  direct := hd
  cursor := hcursor
  calls := fun back hback => hp ▸ h.calls back (hcalls back hback)
  overflow := ho.trans h.overflow

theorem Walking.withData {m : Machine} (h : m.Walking) (n : Machine) : (m.withData n).Walking :=
  h.keep rfl h.direct h.cursor (fun _ => id) rfl rfl

theorem lift_of_ok {x : ExecM α} {m n : Machine} {a : α} (h : x m.data = .ok a n) :
    lift x m.walker = .ok a (m.withData n).walker := by
  rw [lift, show x m.walker.machine = _ from h]
  rfl

theorem lift_of_error {x : ExecM α} {m n : Machine} {e : Error} (h : x m.data = .error e n) :
    lift x m.walker = .error e (m.withData n).walker := by
  rw [lift, show x m.walker.machine = _ from h]
  rfl

theorem lift_bind {x : ExecM α} (hx : Local x) {f : α → ExecM Sequel} {g : α → WalkM Course} {m : Machine}
    (h : ∀ a n, g a (m.withData n).walker = walked (f a (m.withData n))) :
    (lift x >>= g) m.walker = walked ((x >>= f) m) := by
  have hm := hx m
  cases hd : x m.data with
  | error e n =>
    rw [hd] at hm
    rw [bind_of_error hm, bind_of_error (lift_of_error hd)]
    rfl
  | ok a n =>
    rw [hd] at hm
    rw [bind_of_ok hm, bind_of_ok (lift_of_ok hd)]
    exact h a n

theorem goAbove_walker {m : Machine} (h : m.Walking) {i : Nat} {l : Line}
    (hl : m.program.line? i = some l) :
    Walker.goAbove l.label m.walker = .ok (m.course (.jump (i + 1))) m.walker :=
  congrArg (fun x => EStateM.Result.ok (Course.go x) m.walker)
    (Program.above?_of_line? h.ascending hl)

theorem settle_walker {m : Machine} (h : m.Walking) {l : Line} (hl : m.program.line? m.cursor = some l)
    {x : ExecM Sequel} (hx : Onward x) : (lift x >>= Walker.settle l.label) m.walker = walked (x m) := by
  have hm := hx.isLocal m
  cases hd : x m.data with
  | error e n =>
    rw [hm, hd, bind_of_error (lift_of_error hd)]
    rfl
  | ok q n =>
    rw [hm, hd, bind_of_ok (lift_of_ok hd)]
    rcases hx.sequel hd with rfl | rfl
    · exact goAbove_walker (h.withData n) hl
    · rfl

theorem target_bind {m : Machine} (hm : m.Walking) {k : Keyword} {args : List Token}
    {f : Nat → ExecM Sequel} {g : Label → WalkM Course}
    (h : ∀ i l n, m.program.line? i = some l →
      g l.label (m.withData n).walker = walked (f i (m.withData n))) :
    (Walker.target k args >>= g) m.walker = walked ((destination k args >>= f) m) := by
  rcases args with _ | ⟨e, _ | ⟨e', es⟩⟩
  · rfl
  · rw [Walker.target, destination, bind_assoc, bind_assoc]
    refine lift_bind (local_value e) (fun v n => ?_)
    have htarget := Program.target?_eq hm.ascending hm.sound.program v
    rw [bind_assoc, bind_assoc, get_bind, Walker.get_bind]
    cases hj : (m.withData n).program.jump? v with
    | none =>
      rw [show m.program.jump? v = none from hj] at htarget
      rw [show (m.withData n).walker.program.target? v = none from htarget]
      rfl
    | some i =>
      obtain ⟨-, l, hl, -⟩ := (Program.jump?_eq_some_iff hm.ascending).1 hj
      have hl : m.program.line? i = some l := hl
      rw [show m.program.jump? v = some i from hj, Option.bind_some, hl] at htarget
      rw [show (m.withData n).walker.program.target? v = some l.label from htarget]
      exact h i l n hl
  · rfl

theorem walker_cleared (m : Machine) :
    walker { m.forget with program := {} } = { m.walker.forget with program := {}, stage := .stopped } := by
  have hstage : stage { m.forget with program := {} } = .stopped := stage_of_none rfl
  rw [walker, hstage]
  rfl

theorem walker_withCalls (m : Machine) (calls : Stack ReturnPoint) :
    walker { m with calls } = { m.walker with calls := calls.items.map m.program.caller } :=
  rfl

theorem openCall_bind {m : Machine} (h : m.Walking) {l : Line}
    (hl : m.program.line? m.cursor = some l) {i : Nat} {k : Line} (hk : m.program.line? i = some k) :
    (Walker.openCall l.label >>= fun _ => pure (.go (some k.label))) m.walker =
      walked ((openCall >>= fun _ => pure (.jump i) : ExecM Sequel) m) := by
  have hback : m.back = .slot (m.cursor + 1) := by
    rw [back, h.direct]
    rfl
  have hsize : m.walker.calls.length = m.calls.size := by
    rw [m.calls.size_eq]
    exact List.length_map _
  cases hp : m.calls.push m.back with
  | error e =>
    obtain ⟨hfull, rfl⟩ := Stack.error_of_push hp
    rw [bind_of_error (openCall_of_error hp), Walker.openCall, bind_assoc, Walker.get_bind,
      if_neg (hsize ▸ hfull), h.overflow]
    rfl
  | ok calls =>
    obtain ⟨hitems, hroom, -⟩ := Stack.items_of_push hp
    -- the return point stands for the line at the cursor
    have hcalls : calls.items.map m.program.caller = l.label :: m.calls.items.map m.program.caller := by
      rw [hitems, hback, List.map_cons, Program.caller, hl]
      rfl
    have hopen : Walker.openCall l.label m.walker = .ok () (walker { m with calls }) := by
      rw [Walker.openCall, Walker.get_bind, if_pos (hsize ▸ hroom), walker_withCalls m calls, hcalls]
      rfl
    rw [bind_of_ok (openCall_of_push hp), bind_of_ok hopen]
    show _ = EStateM.Result.ok (Course.go ((m.program.line? i).map Line.label)) (walker { m with calls })
    rw [hk]
    rfl

theorem closeCall_bind {m : Machine} (h : m.Walking) {args : List Token} {label : Option Label} :
    (Walker.closeCall >>= Walker.goAbove) m.walker = walked (exec ⟨.ret, args, label⟩ m) := by
  cases hp : m.calls.pop with
  | error e =>
    obtain ⟨hitems, rfl⟩ := Stack.error_of_pop hp
    have hcalls : m.walker.calls = [] := congrArg (List.map _) hitems
    rw [exec, bind_of_error (closeCall_of_error hp), Walker.closeCall, bind_assoc, Walker.get_bind, hcalls,
      h.sound.underflow]
    rfl
  | ok r =>
    obtain ⟨back, calls⟩ := r
    obtain ⟨hitems, ho⟩ := Stack.items_of_pop hp
    obtain ⟨i, hi, rfl⟩ := h.calls back (hitems ▸ List.mem_cons_self)
    have hl : m.program.line? i = some _ := List.getElem?_eq_getElem hi
    have hcalls : m.walker.calls = m.program.lines[i].label :: calls.items.map m.program.caller := by
      show m.calls.items.map m.program.caller = _
      rw [hitems, List.map_cons, Program.caller, hl]
      rfl
    have hclose : Walker.closeCall m.walker = .ok m.program.lines[i].label (walker { m with calls }) := by
      rw [Walker.closeCall, Walker.get_bind, hcalls]
      rfl
    have hwalking : ({ m with calls } : Machine).Walking :=
      h.keep rfl h.direct h.cursor (fun back hback => hitems ▸ List.mem_cons_of_mem _ hback) ho
        (Stack.underflow_of_pop hp)
    rw [exec_ret rfl hp, bind_of_ok hclose]
    exact goAbove_walker hwalking hl

theorem perform_walker {m : Machine} (h : m.Walking) {l : Line} (hl : m.program.line? m.cursor = some l)
    (s : Statement) : Walker.perform l.label s m.walker = walked (exec s m) := by
  induction s using exec.induct generalizing m with
  | case1 t e =>
    refine settle_walker h hl ?_
    exact (local_value e).bind_onward (fun v => (local_assign t v).bind_onward (fun _ => onward_next))
  | case2 args =>
    refine settle_walker h hl ?_
    exact (local_printed args).bind_onward
      (fun text => (local_modify (fun m => rfl)).bind_onward (fun _ => onward_next))
  | case3 args => exact settle_walker h hl (onward_input args _)
  | case4 a o b s _ ih =>
    rw [Walker.perform, exec]
    refine lift_bind (local_value a) (fun x n => lift_bind (local_value b) (fun y n' => ?_))
    have hn := (h.withData n).withData n'
    cases o.holds x y with
    | false => exact goAbove_walker hn hl
    | true => exact ih hn hl
  | case5 args =>
    rw [Walker.perform, exec]
    refine target_bind h (fun i k n hk => ?_)
    show _ = EStateM.Result.ok (Course.go ((m.program.line? i).map Line.label)) _
    rw [hk]
    rfl
  | case6 args =>
    rw [Walker.perform, exec]
    exact target_bind h (fun i k n hk => openCall_bind (h.withData n) hl hk)
  | case7 args =>
    rw [Walker.perform]
    exact closeCall_bind h
  | case8 => exact congrArg (EStateM.Result.ok Course.halt) (walker_cleared m).symm
  | case9 =>
    rw [Walker.perform, exec]
    exact goAbove_walker (h.withData { m with events := m.events ++ m.program.lines.map (.list ·.render) }) hl
  | case14 k args label =>
    have hexec : exec ⟨k, args, label⟩ = throw (Error.Cause.badArguments k.render).error := by
      rw [exec]
      all_goals assumption
    have hperform : Walker.perform l.label ⟨k, args, label⟩ =
        lift (exec ⟨k, args, label⟩) >>= Walker.settle l.label := by
      rw [Walker.perform]
      all_goals assumption
    rw [hperform]
    exact settle_walker h hl (hexec ▸ onward_throw _)
  | case10 | case11 => rfl
  | case12 | case13 => exact settle_walker h hl onward_next

/-! ## Steps -/

theorem walker_abort (m : Machine) (e : Error) : (m.abort e).walker = m.walker.abort e := by
  rw [walker, stage_of_stopped rfl]
  rfl

theorem walker_start {m : Machine} (h : m.program.Ascending) : m.start.walker = m.walker.restart := by
  have hstage : m.start.stage = m.program.least?.elim .stopped .running := by
    rw [Program.least?_eq h]
    cases hl : m.program.line? 0 with
    | none => exact stage_of_none (m := m.start) hl
    | some l =>
      have hstatus : m.start.status = .running := by
        rw [start, if_neg]
        intro hempty
        rw [Program.line?, List.isEmpty_iff.1 hempty] at hl
        cases hl
      exact stage_of_running hstatus hl
  rw [walker, hstage]
  rfl

theorem walker_moveTo {m : Machine} (hs : m.status = .running) (slot : Nat) (x : Label) :
    (m.moveTo slot x).walker = m.walker.proceed x (m.course (.jump slot)) := by
  unfold moveTo course
  dsimp only
  cases hl : m.program.line? slot with
  | none =>
    rw [if_neg (Nat.not_lt.2 (Program.line?_eq_none.1 hl)), walker_abort]
    rfl
  | some l =>
    have hlt : slot < m.program.size := (List.getElem?_eq_some_iff.1 hl).1
    rw [if_pos hlt]
    exact congrArg (fun st => { m.walker with stage := st })
      (stage_of_running (m := { m with cursor := slot }) hs hl)

theorem walker_follow {m : Machine} (hp : m.program.Ascending) (hs : m.status = .running)
    (hd : m.direct = none) {l : Line} (hl : m.program.line? m.cursor = some l) (q : Sequel) :
    (m.follow l.label q).walker = m.walker.proceed l.label (m.course q) := by
  cases q with
  | next =>
    rw [follow, if_neg (by simp [hd])]
    exact walker_moveTo hs (m.cursor + 1) l.label
  | jump slot => exact walker_moveTo (m := { m with direct := none }) hs slot l.label
  | halt =>
    rw [follow, walker, stage_of_stopped rfl]
    rfl
  | restart => exact walker_start hp
  | wait =>
    exact congrArg (fun st => { m.walker with stage := st })
      (stage_of_waiting (m := { m with status := .waiting }) rfl hl)

theorem Walking.step_walker {m : Machine} (h : m.Walking) : m.step.walker = m.walker.step := by
  cases h.staged with
  | stopped hs hstage => rw [step_of_not_isRunning (by simp [isRunning, hs]), Walker.step, hstage]
  | waiting hs _ hstage => rw [step_of_not_isRunning (by simp [isRunning, hs]), Walker.step, hstage]
  | @running l hs hl hstage =>
    have hup : m.upcoming? = some l.statement := by
      rw [upcoming?, h.direct, hl]
      rfl
    have hline : m.walker.program.labelled? l.label = some l := Program.labelled?_of_line? h.ascending hl
    have hwalk : m.walker.step = Walker.conclude l.label (walked (exec l.statement m)) := by
      simp only [Walker.step, hstage, hline, perform_walker h hl]
    rw [hwalk, step_eq_of_exec (by simp [isRunning, hs]) hup,
      (h.sound.program l (List.mem_of_getElem? hl)).label]
    have htame := exec_tame l.statement m
    cases hx : exec l.statement m with
    | error e n => exact walker_abort n _
    | ok q n =>
      rw [hx] at htame
      cases htame with
      | ok hplace =>
        refine walker_follow (hplace.program ▸ h.ascending) (hplace.status.trans hs)
          (hplace.direct.trans h.direct) ?_ q
        rw [hplace.program, hplace.cursor, hl]
      | cleared =>
        exact congrArg (fun st => { n.walker with stage := st })
          (stage_of_stopped (m := { n with direct := none, status := .stopped }) rfl)

theorem CallsAfter.overflow {m n : Machine} (h : CallsAfter m n) :
    n.calls.overflow = m.calls.overflow := by
  cases h with
  | kept hc => rw [hc]
  | opened hc => exact (Stack.items_of_push hc).2.2
  | closed hc => exact (Stack.items_of_pop hc).2
  | cleared hc => rw [hc]; rfl

theorem Walking.step {m : Machine} (h : m.Walking) : m.step.Walking := by
  have hplace : m.step.direct = none ∧ (m.step.isActive = true → m.step.cursor < m.step.program.size) := by
    by_cases hr : m.status = .running
    · cases step_lands hr with
      | stopped hs hd => exact ⟨hd, fun ha => by simp [isActive, hs] at ha⟩
      | running _ hd _ hc => exact ⟨hd, fun _ => hc⟩
      | waiting _ hd hp hc => exact ⟨hd.trans h.direct, fun _ => hc ▸ hp ▸ h.cursor (by simp [isActive, hr])⟩
    · rw [step_of_not_isRunning (by simp [isRunning, hr])]
      exact ⟨h.direct, h.cursor⟩
  refine ⟨step_ascending h.ascending, h.sound.inherit (step_inherits m), hplace.1, hplace.2, ?_, ?_⟩
  · cases step_calls m with
    | kept hc hp =>
      rw [hc, hp]
      exact h.calls
    | cleared hc =>
      rw [hc]
      rintro back ⟨⟩
    | opened hc hp honLine =>
      rw [(Stack.items_of_push hc).1, hp]
      intro back hback
      rcases List.mem_cons.1 hback with rfl | hback
      · exact ⟨m.cursor, honLine h.direct, by rw [Machine.back, h.direct]; rfl⟩
      · exact h.calls back hback
    | closed hc hp =>
      rw [hp]
      exact fun back hback => h.calls back ((Stack.items_of_pop hc).1 ▸ List.mem_cons_of_mem _ hback)
  · exact (step_calls m).overflow.trans h.overflow

/-! ## Runs -/

theorem Walking.abort {m : Machine} (h : m.Walking) (e : Error) : (m.abort e).Walking :=
  h.keep rfl rfl (fun ha => by simp [isActive, Machine.abort] at ha) (fun _ => id) rfl rfl

theorem Walking.takeAnswer {m : Machine} (h : m.Walking) (hs : m.status = .waiting) {l : Line}
    (hl : m.program.line? m.cursor = some l) (text : String) :
    (m.takeAnswer text).Walking ∧ (m.takeAnswer text).walker = m.walker.takeAnswer l.label text := by
  have hlocal := local_answerValues text m
  unfold Machine.takeAnswer Walker.takeAnswer
  cases hd : answerValues text m.data with
  | error e n =>
    rw [hlocal, hd, lift_of_error hd]
    dsimp only [inside]
    rw [(h.withData n).upcomingLabel? hl]
    exact ⟨(h.withData n).abort _, walker_abort _ _⟩
  | ok vs n =>
    rw [hlocal, hd, lift_of_ok hd]
    refine ⟨h.keep rfl h.direct (fun _ => h.cursor (by simp [isActive, hs])) (fun _ => id) rfl rfl, ?_⟩
    exact congrArg (fun st => { (m.withData n).walker with inputs := n.inputs ++ vs, stage := st })
      (stage_of_running (m := { m with status := .running }) rfl hl)

theorem Walking.breakOff {m : Machine} (h : m.Walking) :
    m.breakOff.Walking ∧ m.breakOff.walker = m.walker.act .interrupt := by
  have hactive {l : Line} (ha : m.isActive = true) (hl : m.program.line? m.cursor = some l)
      (hline : m.walker.stage.line? = some l.label) :
      m.breakOff.Walking ∧ m.breakOff.walker = m.walker.act .interrupt := by
    rw [Machine.breakOff, if_pos ha, h.upcomingLabel? hl, Walker.act, hline]
    exact ⟨h.abort _, walker_abort _ _⟩
  cases h.staged with
  | stopped hs hstage =>
    rw [Machine.breakOff, if_neg (by simp [isActive, hs]), Walker.act, hstage]
    exact ⟨h, rfl⟩
  | running hs hl hstage => exact hactive (by simp [isActive, hs]) hl (by rw [hstage]; rfl)
  | waiting hs hl hstage => exact hactive (by simp [isActive, hs]) hl (by rw [hstage]; rfl)

theorem Walking.answer {m : Machine} (h : m.Walking) (text : String) :
    (m.act (.answer text)).Walking ∧ (m.act (.answer text)).walker = m.walker.act (.answer text) := by
  cases h.staged with
  | waiting hs hl hstage =>
    have hw : m.isWaiting = true := by simp [isWaiting, hs]
    rw [Machine.act, if_pos hw, submit, if_pos hw, Walker.act, hstage]
    exact h.takeAnswer hs hl text
  | stopped hs hstage | running hs _ hstage =>
    rw [Machine.act, if_neg (by simp [isWaiting, hs]), Walker.act, hstage]
    exact ⟨h, rfl⟩

theorem Walking.fetch {m : Machine} (h : m.Walking) :
    m.fetch?.2.Walking ∧ m.fetch?.2.walker = { m.walker with events := m.events.tail } := by
  cases he : m.events with
  | nil =>
    rw [fetch?, he]
    exact ⟨h, by rw [walker, he]; rfl⟩
  | cons e es =>
    rw [fetch?, he]
    exact ⟨h.keep rfl h.direct h.cursor (fun _ => id) rfl rfl, rfl⟩

/-- What happens to a run happens to the walk as well. -/
theorem Walking.act {m : Machine} (h : m.Walking) (a : Act) :
    (m.act a).Walking ∧ (m.act a).walker = m.walker.act a := by
  cases a with
  | step => exact ⟨h.step, h.step_walker⟩
  | answer text => exact h.answer text
  | fetch => exact h.fetch
  | interrupt => exact h.breakOff

theorem Walking.moment {m : Machine} (h : m.Walking) : m.moment = m.walker.moment := by
  cases h.staged with
  | stopped hs hstage =>
    rw [Machine.moment, Walker.moment, hstage, hs, if_neg (by simp [isActive, hs])]
    rfl
  | running hs hl hstage | waiting hs hl hstage =>
    rw [Machine.moment, Walker.moment, hstage, hs, if_pos (by simp [isActive, hs]), h.upcomingLabel? hl]
    rfl

theorem Walking.moments {m : Machine} (h : m.Walking) (acts : List Act) :
    (acts.scanl Machine.act m).map Machine.moment =
      (acts.scanl Walker.act m.walker).map Walker.moment := by
  induction acts generalizing m with
  | nil => rw [List.scanl_nil, List.scanl_nil, List.map_singleton, List.map_singleton, h.moment]
  | cons a acts ih =>
    obtain ⟨hact, hwalker⟩ := h.act a
    rw [List.scanl_cons, List.scanl_cons, List.map_cons, List.map_cons, h.moment, ih hact, hwalker]

/-! ## Starting a program -/

theorem Reachable.overflow {m : Machine} (h : m.Reachable) :
    m.calls.overflow = "TOO MANY NESTED GOSUBS" := by
  induction h with
  | fresh => rfl
  | @submit m text _ ih =>
    obtain ⟨c, hc⟩ := submit_revised m text
    exact hc.calls ▸ ih
  | load source _ hl ih =>
    obtain ⟨p, -, hl⟩ := bind_eq_ok hl
    cases hl
    exact ih
  | start _ ih => exact ih
  | @step m _ ih => exact (step_calls m).overflow.trans ih
  | untilEvent steps _ ih =>
    refine untilEvent_of_step (P := fun m => m.calls.overflow = _)
      (fun {m} h => (step_calls m).overflow.trans h) (fun {m} h => ?_) steps ih
    obtain ⟨es, hes⟩ := m.fetch?_snd
    rwa [hes]
  | @breakOff m _ ih => rcases m.breakOff_eq with he | ⟨e, he⟩ <;> rwa [he]

theorem Reachable.walking_start {m : Machine} (h : m.Reachable) : m.start.Walking where
  ascending := h.ascending
  sound := h.start.sound
  direct := rfl
  cursor := fun ha => (placed_start m).cursor ha rfl
  calls := by rintro back ⟨⟩
  overflow := h.overflow

/-- A machine whose program is started shows the same statuses, lines, variables and events as a walker
that starts at the least label of the program, whatever happens meanwhile, as long as no line is
entered. -/
theorem start_refines_walk {m : Machine} (h : m.Reachable) (acts : List Act) :
    (acts.scanl Machine.act m.start).map Machine.moment =
      (acts.scanl Walker.act
        (Walker.restart { generator := m.generator, program := m.program, events := m.events })).map
          Walker.moment := by
  rw [h.walking_start.moments, walker_start h.ascending]
  rfl

/-- A call behind a condition, and a jump to a line that was numbered by itself. -/
def detour : Machine :=
  ((ofSeed 1).replaceProgram
    "10 INPUT N\n20 IF N > 1 THEN GOSUB 40\nPRINT N\nGOTO 21\n40 RETURN").toOption.getD (ofSeed 1)

theorem start_refines_walk_detour :
    let acts : List Act := [.step, .answer "2", .step, .step, .step, .fetch, .step, .step]
    let walker : Walker :=
      { generator := detour.generator, program := detour.program, events := detour.events }
    detour.Reachable ∧
      (acts.scanl Machine.act detour.start).map Machine.moment =
        (acts.scanl Walker.act walker.restart).map Walker.moment ∧
      ((acts.scanl Walker.act walker.restart).map Walker.moment).map Moment.line =
        [some 10, some 10, some 10, some 20, some 40, some 21, some 21, some 22, none] ∧
      (acts.foldl Machine.act detour.start).events =
        [.print "2\n", .error ((Error.Cause.noSuchLabel "21").error.onLine (some 22))] := by
  have h : detour.Reachable := by
    unfold detour
    cases hload : (ofSeed 1).replaceProgram _ with
    | error e => exact .fresh (.ofSeed 1)
    | ok m => exact .load _ (.fresh (.ofSeed 1)) hload
  exact ⟨h, start_refines_walk h _, by decide +kernel, by decide +kernel⟩

end Machine

end LineBasic
