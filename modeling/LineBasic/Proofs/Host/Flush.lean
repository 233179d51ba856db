import LineBasic.Proofs.Host.Course
import LineBasic.Proofs.Machine.OutputOperations

/-!
# What flushing writes

A session writes what its machine has shown in batches, one after each step. Taking a batch leaves
the machine as it is otherwise, and nothing that the machine does depends on what it has shown
before. So however the output is cut into batches, the batches together are the output of a machine
whose output is never taken.

## Main definitions

* `Session.wrote` — what is written by some of the acts
* `Machine.act`, `Machine.actAll` — what a host does, on a machine whose output stays

## Main results

* `Session.wrote_eq_since` — what is written at all is written by one of the acts
* `Session.wrote_flush`, `Session.wrote_flush_cut` — what flushing writes
-/

namespace LineBasic

namespace Session

/-- What a session `t` has written since it was `s`. -/
def since (s t : Session) : Bytes :=
  (t.output.drop s.output.length).flatMap Chunk.shown

/-- What is written by those acts that `which` picks. -/
def wrote (which : Act → Bool) (s : Session) : List Act → Bytes
  | [] => []
  | a :: acts => (if which a then s.since (s.act a) else []) ++ wrote which (s.act a) acts

end Session

namespace Machine

/-- A machine after an act of its host. Its output stays. -/
def act (m : Machine) : Act → Machine
  | .submit line => (m.submit line).2
  | .step => m.step.2
  | .reply text => (m.provideInput? text).getD m
  | .interrupt => m.interrupt
  | .flush | .prompt => m

/-- A machine after acts of its host. -/
def actAll (m : Machine) (acts : List Act) : Machine :=
  acts.foldl act m

variable {m : Machine} {output : Array Event} {log : Array LogRecord}

/-- What was shown before does not matter. -/
theorem act_after (a : Act) : (m.after output log).act a = (m.act a).after output log := by
  cases a with
  | submit line => exact congrArg Prod.snd (submit_after m output log line)
  | step => exact congrArg Prod.snd (step_after m output log)
  | reply text =>
    rw [act, act, provideInput?_after]
    cases m.provideInput? text <;> rfl
  | interrupt => exact interrupt_after m output log
  | flush => rfl
  | prompt => rfl

/-- A machine whose output is never taken does not notice where it would be. -/
theorem actAll_filter (m : Machine) (acts : List Act) :
    m.actAll (acts.filter (· ≠ .flush)) = m.actAll acts := by
  induction acts generalizing m with
  | nil => rfl
  | cons a acts ih =>
    by_cases ha : a = .flush
    · rw [List.filter_cons_of_neg (by simpa using ha), ih, ha]
      rfl
    · rw [List.filter_cons_of_pos (by simpa using ha)]
      exact ih (m.act a)

end Machine

namespace Session

variable {s : Session}

theorem since_of_output {t : Session} {chunks : List Chunk} (h : t.output = s.output ++ chunks) :
    s.since t = chunks.flatMap Chunk.shown := by
  rw [since, h, List.drop_left]

theorem output_write (s : Session) (text : Bytes) :
    (s.write text).output = s.output ++ [.text text] :=
  List.reverse_cons

/-- Acts only add to what was written. -/
theorem output_act (s : Session) (a : Act) : ∃ chunks, (s.act a).output = s.output ++ chunks := by
  have hnone : ∀ t : Session, t.output = s.output → ∃ chunks, t.output = s.output ++ chunks :=
    fun t ht => ⟨[], ht.trans (List.append_nil _).symm⟩
  cases a with
  | flush =>
    rw [act, flush]
    dsimp only [Machine.takeOutput]
    split
    · exact hnone _ rfl
    · exact ⟨_, output_write _ _⟩
  | prompt => exact ⟨_, output_write s _⟩
  | _ => exact hnone _ rfl

theorem output_actAll (s : Session) (acts : List Act) :
    ∃ chunks, (acts.foldl act s).output = s.output ++ chunks := by
  induction acts generalizing s with
  | nil => exact ⟨[], (List.append_nil _).symm⟩
  | cons a acts ih =>
    obtain ⟨first, hfirst⟩ := s.output_act a
    obtain ⟨rest, hrest⟩ := ih (s.act a)
    exact ⟨first ++ rest, hrest.trans (by rw [hfirst, List.append_assoc])⟩

/-- What is written at all is written by one of the acts. -/
theorem wrote_eq_since (s : Session) (acts : List Act) :
    s.wrote (fun _ => true) acts = s.since (acts.foldl act s) := by
  induction acts generalizing s with
  | nil =>
    exact (since_of_output (List.append_nil _).symm).symm
  | cons a acts ih =>
    obtain ⟨first, hfirst⟩ := s.output_act a
    obtain ⟨rest, hrest⟩ := (s.act a).output_actAll acts
    have hboth : (acts.foldl act (s.act a)).output = s.output ++ (first ++ rest) := by
      rw [hrest, hfirst, List.append_assoc]
    rw [wrote, if_pos rfl, ih, List.foldl_cons, since_of_output hfirst, since_of_output hrest,
      since_of_output hboth, List.flatMap_append]

/-- A flush writes what the machine has shown. -/
theorem since_flush (s : Session) : s.since s.flush = Event.render s.machine.output.toList := by
  rw [flush]
  dsimp only [Machine.takeOutput]
  split
  · next hempty =>
    rw [List.isEmpty_iff.mp hempty]
    exact since_of_output (List.append_nil _).symm
  · exact (since_of_output (output_write _ _)).trans (List.append_nil _)

/-- Every other act does to the machine of a session what it does to a machine. -/
theorem machine_act (s : Session) {a : Act} (ha : a ≠ .flush) :
    (s.act a).machine = s.machine.act a := by
  cases a with
  | flush => exact absurd rfl ha
  | _ => rfl

/-- What flushing writes, after the last act of all, is what the machine shows whose output is never
taken. -/
theorem wrote_flush (s : Session) (acts : List Act) :
    s.wrote (· = .flush) (acts ++ [.flush]) =
      Event.render (s.machine.actAll acts).output.toList := by
  suffices h : ∀ (acts : List Act) (s : Session) output log,
      Event.render output.toList ++ s.wrote (· = .flush) (acts ++ [.flush]) =
        Event.render ((s.machine.after output log).actAll acts).output.toList by
    have hsame : s.machine.after #[] #[] = s.machine := by
      rw [Machine.after, Array.empty_append, Array.empty_append]
    rw [← hsame, ← h acts s #[] #[]]
    rfl
  intro acts
  induction acts with
  | nil =>
    intro s output log
    have hlast : s.wrote (· = .flush) ([] ++ [.flush]) = s.since s.flush :=
      List.append_nil _
    have hall : ((s.machine.after output log).actAll []).output.toList =
        output.toList ++ s.machine.output.toList := Array.toList_append
    rw [hlast, hall, since_flush, Event.render, Event.render, Event.render, List.flatMap_append]
  | cons a acts ih =>
    intro s output log
    have hnext : (s.machine.after output log).actAll (a :: acts) =
        ((s.machine.act a).after output log).actAll acts :=
      congrArg (Machine.actAll · acts) (Machine.act_after a)
    rw [List.cons_append, wrote, hnext]
    by_cases ha : a = .flush
    · subst ha
      have htaken : (s.machine.act .flush).after output log =
          s.flush.machine.after (output ++ s.machine.output) (log ++ s.machine.log) := by
        rw [flush_machine, Machine.after, Machine.after]
        simp only [Array.append_empty]
        rfl
      have hsplit : Event.render (output ++ s.machine.output).toList =
          Event.render output.toList ++ Event.render s.machine.output.toList := by
        rw [Array.toList_append, Event.render, Event.render, Event.render, List.flatMap_append]
      have hbatch : s.since (s.act .flush) = Event.render s.machine.output.toList := since_flush s
      rw [htaken, ← ih, hsplit, if_pos (decide_eq_true rfl), hbatch, List.append_assoc]
      rfl
    · rw [if_neg (by simpa using ha), List.nil_append, ih, machine_act s ha]

/-- So it is however the flushes are cut. -/
theorem wrote_flush_cut (s : Session) {acts cut : List Act}
    (h : cut.filter (· ≠ .flush) = acts.filter (· ≠ .flush)) :
    s.wrote (· = .flush) (cut ++ [.flush]) =
      Event.render (s.machine.actAll acts).output.toList := by
  rw [wrote_flush, ← Machine.actAll_filter, h, Machine.actAll_filter]

end Session

end LineBasic
