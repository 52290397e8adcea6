import HkRbu.Pipeline.Invariant

/-!
# Nothing lost between the sockets and the slices

What the accepted messages are to add to the data model is written, still owed by a pending job, or
lost with a job that was given up: in every state of every run, item by item (`conserved`). So a
run that has been drained and has given up no job has written exactly the items of the messages it
has accepted (`exactly_once`), and whatever fails, no item is written twice or made up
(`at_most_once`). For the bins this rests on the mutexes of the source; for the counters, here and
in the modules built on this one, on the atomic accesses that `Worker.next` assumes.
-/

namespace HkRbu
namespace Pipeline

variable {ι : Type} [DecidableEq ι] {service : ι → Service} {currentCounter : U64} {dm₀ : DataModel}
  {P : Pipeline ι}

/-! ## The books -/

/-- What a pending job has still to write. The MPMT functions write nothing. -/
def due (ids : IndexMap U32 U16) (inp : Inputs) (w : Worker ι) : Multiset Item :=
  if w.job.func = some .idod then w.owes ids inp else 0

/-- What the pending jobs have still to write. -/
def owed (ids : IndexMap U32 U16) (P : Pipeline ι) : Multiset Item := P.total (due ids)

/-- The message of the parts `header` and `data`, as the functions read it. -/
def messageOf (currentCounter : U64) (header data : Buffer) : Inputs :=
  ⟨header, data, currentCounter, fun _ => default⟩

/-- What an event promises to the data model. -/
def Event.promised (ids : IndexMap U32 U16) (currentCounter : U64) : Event → Multiset Item
  | accepted header data => (messageOf currentCounter header data).items ids
  | wrote _ | failed => 0

/-- What an event brings to the data model. -/
def Event.written : Event → Multiset Item
  | wrote i => {i}
  | accepted .. | failed => 0

theorem sum_written (items : List Item) :
    ((items.map Event.wrote).map Event.written).sum = items := by
  induction items with
  | nil => rfl
  | cons i items ih =>
    rw [List.map_cons, List.map_cons, List.sum_cons, ih]
    rfl

theorem sum_promised (ids : IndexMap U32 U16) (currentCounter : U64) (items : List Item) :
    ((items.map Event.wrote).map (Event.promised ids currentCounter)).sum = 0 := by
  induction items with
  | nil => rfl
  | cons i items ih =>
    rw [List.map_cons, List.map_cons, List.sum_cons, ih]
    rfl

omit [DecidableEq ι] in
theorem owes_inputs (P : Pipeline ι) (ids : IndexMap U32 U16) (w x : Worker ι)
    (uninit : Nat → TPUHit) : x.owes ids (P.inputs w.job uninit) = x.owes ids (P.message w.job) :=
  Worker.owes_uninit _ _ _ _ _ x

/-- What a step does to the books: `BooksKept` is the balance of the step `l`. -/
def BooksKept (service : ι → Service) (ids : IndexMap U32 U16) (currentCounter : U64)
    (P : Pipeline ι) (l : Label ι) : Prop :=
  ∃ lost, (P.step service l).owed ids + ((P.record service l).map Event.written).sum + lost =
      P.owed ids + ((P.record service l).map (Event.promised ids currentCounter)).sum ∧
    ((∀ e ∈ P.record service l, e ≠ .failed) → lost = 0)

omit [DecidableEq ι] in
theorem record_thread (service : ι → Service) (P : Pipeline ι) (i : ι) (it : Iteration) :
    P.record service (.thread i it) =
      if (P.receivers i).up = true ∧ service i = .idod then
        it.message.toList.map fun m => .accepted m.1 m.2
      else [] := rfl

theorem Inv.booksKept_thread (h : Inv service currentCounter dm₀ P) (ids : IndexMap U32 U16)
    (i : ι) (it : Iteration) : BooksKept service ids currentCounter P (.thread i it) := by
  have hreceived := System.received h.jobs h.stock i it
  have hrunning := P.system.thread_running service i it
  generalize hT : P.system.step service (.thread i it) = T at hreceived hrunning
  have hstep : P.step service (.thread i it) = P.withSystem T := by rw [← hT]; rfl
  cases hreceived with
  | none quiet hqueue =>
    have hrecord : P.record service (.thread i it) = [] := by
      rw [record_thread]
      split_ifs with hup
      · rw [quiet hup.1]
        rfl
      · rfl
    have hmoves : Moves service P (.thread i it) [] [] := by
      refine ⟨P.tasks, .refl _, .of_eq ?_⟩
      rw [hstep, tasks, withSystem, hqueue]
      rfl
    obtain ⟨others, hbefore, hafter⟩ := h.total_step hmoves (due ids)
    refine ⟨0, ?_, fun _ => rfl⟩
    simp [owed, hrecord, hbefore, hafter]
  | @job v header data up message hqueue hparts =>
    have hmoves : Moves service P (.thread i it) [] [queued (.filled (service i) i v)] := by
      refine ⟨P.tasks, .refl _, ?_⟩
      rw [hstep, tasks, withSystem, hqueue, List.map_append, List.append_assoc]
      exact List.perm_middle
    obtain ⟨others, hbefore, hafter⟩ := h.total_step hmoves (due ids)
    refine ⟨0, ?_, fun _ => rfl⟩
    rw [owed, owed, hbefore, hafter]
    have hmessage : (P.step service (.thread i it)).message (queued (.filled (service i) i v)).job =
        messageOf currentCounter header data := by
      have hcounter := (h.step (.thread i it)).currentCounter
      rw [hstep] at hcounter ⊢
      have hvectors : (P.withSystem T).vectors v = [.empty, ⟨header, true⟩, ⟨data, false⟩] := hparts
      simp [Pipeline.message, inputs, queued, Job.vector, Job.filled, hvectors, hcounter, messageOf]
    have hdue : due ids
        ((P.step service (.thread i it)).message (queued (.filled (service i) i v)).job)
        (queued (.filled (service i) i v)) =
        if service i = .idod then ((messageOf currentCounter header data).items ids : Multiset Item)
        else 0 := by
      rw [due, hmessage]
      simp [queued, Job.filled, Worker.owes]
    have hup : (P.receivers i).up = true := up
    cases hs : service i with
    | idod =>
      rw [hs] at hdue
      simp [record_thread, hup, hs, message, hdue, Event.written, Event.promised, add_comm]
    | mpmt =>
      rw [hs] at hdue
      simp [record_thread, hs, hdue]

/-- **Every step keeps the books.** -/
theorem Inv.booksKept (h : Inv service currentCounter dm₀ P) (l : Label ι) :
    BooksKept service dm₀.pmtIdMap currentCounter P l := by
  have heffect := P.step_effect service l
  generalize hrecord : P.record service l = es, hstep : P.step service l = P' at heffect
  cases heffect with
  | none l =>
    refine ⟨0, ?_, fun _ => rfl⟩
    rw [hrecord, hstep]
    simp
  | thread i it => exact h.booksKept_thread dm₀.pmtIdMap i it
  | kill i =>
    refine ⟨0, ?_, fun _ => rfl⟩
    rw [hrecord, hstep]
    simp only [List.map_nil, List.sum_nil, add_zero]
    rfl
  | @take k job pick hk =>
    obtain ⟨hlt, rfl⟩ := List.getElem?_eq_some_iff.mp hk
    obtain ⟨others, hsum, hsum'⟩ := h.total_step (P.moves_take service pick hlt) (due dm₀.pmtIdMap)
    refine ⟨0, ?_, fun _ => rfl⟩
    rw [owed, owed, hsum, hsum', hrecord, hstep]
    simp only [List.map_nil, List.sum_nil, add_zero]
    rfl
  | @work k w pool uninit hk hidod =>
    obtain ⟨hlt, rfl⟩ := List.getElem?_eq_some_iff.mp hk
    have hw := List.getElem_mem hlt
    have hadv := Worker.next_advances pool (P.inputs P.workers[k].job uninit)
      (h.aligned _ hw)
    obtain ⟨others, hsum, hsum'⟩ :=
      h.total_step (P.moves_work service pool uninit hlt hidod) (due dm₀.pmtIdMap)
    generalize P.workers[k].next pool (P.inputs P.workers[k].job uninit) P.dataModel = r at *
    have howes := hadv.owes h.ids (h.running _ hw)
    rw [P.owes_inputs _ P.workers[k] P.workers[k] uninit,
      P.owes_inputs _ P.workers[k] r.2 uninit] at howes
    have hdue : due dm₀.pmtIdMap (P.message P.workers[k].job) P.workers[k] = _ := if_pos hidod
    have hdue' : due dm₀.pmtIdMap ((P.step service (.work k pool uninit)).message r.2.job) r.2 =
        r.2.owes dm₀.pmtIdMap (P.message P.workers[k].job) := by
      rw [hstep, due, hadv.job, if_pos hidod]
      rfl
    refine ⟨0, ?_, fun _ => rfl⟩
    rw [owed, owed, hsum, hsum', hrecord, sum_written, sum_promised, List.map_singleton,
      List.map_singleton, List.sum_singleton, List.sum_singleton, hdue, hdue', howes,
      ← Multiset.coe_add]
    abel
  | @finish k w ok hk hmay =>
    obtain ⟨hlt, rfl⟩ := List.getElem?_eq_some_iff.mp hk
    obtain ⟨others, hsum, hsum'⟩ :=
      h.total_step (P.moves_finish service hlt hmay) (due dm₀.pmtIdMap)
    refine ⟨due dm₀.pmtIdMap (P.message P.workers[k].job) P.workers[k], ?_, ?_⟩
    · rw [owed, owed, hsum, hsum', hrecord]
      split_ifs <;> simp [Event.written, Event.promised, add_comm]
    · intro hnone
      rw [due]
      split_ifs with hidod
      · have hok : ok ≠ false := by
          rintro rfl
          exact hnone .failed (by simp [hrecord, hidod]) rfl
        rw [Worker.owes, (Worker.atEnd_iff hidod).mp (hmay.resolve_left hok)]
        rfl
      · rfl

/-! ## Whole runs -/

/-- The items the events say have been written, in order. -/
def writtenItems (es : List Event) : List Item :=
  es.filterMap fun
    | .wrote i => some i
    | .accepted .. | .failed => none

/-- The messages that have been accepted, in order. -/
def messages (currentCounter : U64) (es : List Event) : List Inputs :=
  es.filterMap fun
    | .accepted header data => some (messageOf currentCounter header data)
    | .wrote _ | .failed => none

/-- What messages are to add to a data model with the PMT ids `ids`. -/
def dues (ids : IndexMap U32 U16) (ms : List Inputs) : Multiset Item :=
  (ms.map fun m => (m.items ids : Multiset Item)).sum

theorem sum_map_written (es : List Event) :
    (es.map Event.written).sum = (writtenItems es : Multiset Item) := by
  induction es with
  | nil => rfl
  | cons e es ih =>
    rw [List.map_cons, List.sum_cons, ih]
    cases e with
    | wrote i => rfl
    | accepted | failed => exact zero_add _

theorem sum_map_promised (ids : IndexMap U32 U16) (currentCounter : U64) (es : List Event) :
    (es.map (Event.promised ids currentCounter)).sum = dues ids (messages currentCounter es) := by
  induction es with
  | nil => rfl
  | cons e es ih =>
    rw [List.map_cons, List.sum_cons, ih]
    cases e with
    | accepted header data => rfl
    | wrote | failed => exact zero_add _

/-- What a step writes is what it records. -/
theorem Inv.view_step (h : Inv service currentCounter dm₀ P) (l : Label ι) :
    (P.step service l).dataModel.view =
      (writtenItems (P.record service l)).foldl Item.apply P.dataModel.view := by
  have heffect := P.step_effect service l
  generalize P.record service l = es, P.step service l = P' at heffect
  cases heffect with
  | none | kill | take => rfl
  | thread i it =>
    split_ifs
    · cases it.message <;> rfl
    · rfl
  | @work k w pool uninit hk hidod =>
    have hal := h.aligned w (List.mem_of_getElem? hk)
    have hview := (Worker.next_advances pool (P.inputs w.job uninit) hal).view h.distinct hal
    refine hview.trans ?_
    rw [writtenItems, List.filterMap_map]
    exact congrArg (List.foldl _ _) (List.filterMap_some).symm
  | finish =>
    split_ifs
    · rfl
    · rfl

variable (service currentCounter) (ls : List (Label ι))

/-- **The data model is the items written to it**, one after the other. -/
theorem view_exec (h₀ : dm₀.Distinct) :
    (exec service currentCounter dm₀ ls).dataModel.view =
      (writtenItems (journal service currentCounter dm₀ ls)).foldl Item.apply dm₀.view := by
  refine (Runs.journal_induct (R := fun (P : Pipeline ι) es =>
    P.dataModel.view = (writtenItems es).foldl Item.apply dm₀.view)
    Inv.steps ?_ (.start service currentCounter h₀) rfl).2
  intro P es l hinv hview
  rw [hinv.view_step l, hview, ← List.foldl_append]
  exact congrArg (List.foldl _ _) List.filterMap_append.symm

/-- **Conservation**: in every state of every run, what the accepted messages are to add has been
    written, is owed by a pending job, or went with a job that was given up. -/
theorem conserved (h₀ : dm₀.Distinct) :
    ∃ lost, (exec service currentCounter dm₀ ls).owed dm₀.pmtIdMap +
        writtenItems (journal service currentCounter dm₀ ls) + lost =
      dues dm₀.pmtIdMap (messages currentCounter (journal service currentCounter dm₀ ls)) ∧
      (.failed ∉ journal service currentCounter dm₀ ls → lost = 0) := by
  obtain ⟨lost, hsum, hnone⟩ := Runs.balance ls (· = Event.failed)
    Inv.steps (fun _ l h => h.booksKept l) (.start service currentCounter h₀)
  refine ⟨lost, ?_, fun h => hnone fun e he heq => h (heq ▸ he)⟩
  rw [sum_map_written, sum_map_promised] at hsum
  refine hsum.trans ?_
  show 0 + _ = _
  exact zero_add _

/-- No job is pending. -/
def Drained (P : Pipeline ι) : Prop := P.jobQueue = [] ∧ P.workers = []

omit [DecidableEq ι] in
theorem Drained.owed (h : P.Drained) (ids : IndexMap U32 U16) : P.owed ids = 0 := by
  rw [Pipeline.owed, total, tasks, h.1, h.2]
  rfl

theorem failed_notMem_journal (hls : ∀ k, .finish k false ∉ ls) :
    .failed ∉ journal service currentCounter dm₀ ls := by
  induction ls using List.reverseRecOn with
  | nil => exact List.not_mem_nil
  | append_singleton ls l ih =>
    have hbefore := ih fun k hk => hls k (List.mem_append_left _ hk)
    rw [journal, Runs.journal_concat, List.mem_append, not_or]
    refine ⟨hbefore, fun hmem => ?_⟩
    have heffect := step_effect service
      (Runs.exec (step service) (start currentCounter dm₀) ls) l
    generalize record service _ l = es, step service _ l = P' at heffect hmem
    cases heffect with
    | none | kill | take => exact List.not_mem_nil hmem
    | thread i it => split_ifs at hmem <;> simp at hmem
    | work => simp at hmem
    | @finish k w ok =>
      split_ifs at hmem with hok
      · exact hls k (by simp [hok.1])
      · exact List.not_mem_nil hmem

/-- Two workers take turns on the messages. -/
def sampleRun (ms : List WellFormed) : List (Label Unit) :=
  let arrives (m : WellFormed) : Label Unit :=
    .thread () (.ofParts ⟨[], fun _ => 0⟩ m.header m.data none none)
  let turn := [.work 0 .counting fun _ => default, .work 1 .counting fun _ => default]
  ms.map arrives ++ [.take 0 none, .take 0 none] ++
    (List.replicate 16 turn).flatten ++ [.finish 1 true, .finish 0 true]

theorem finish_notMem_sampleRun (ms : List WellFormed) (k : Nat) :
    .finish k false ∉ sampleRun ms := by
  intro h
  simp [sampleRun, List.replicate] at h

/-- Two messages, each of a sync and a hit. -/
def sampleMessages : List WellFormed :=
  [.sample [.syncAt 0, .plainHit], .sample [.syncAt 1024, .plainHit]]

/-- **Exactly once.** A run that ends with no job pending and has given up none has written the
    items of the messages it has accepted, each once, and nothing else. -/
theorem exactly_once (h₀ : dm₀.Distinct)
    (hdrained : (exec service currentCounter dm₀ ls).Drained)
    (hnone : .failed ∉ journal service currentCounter dm₀ ls) :
    ∃ order : List Item,
      (exec service currentCounter dm₀ ls).dataModel.view = order.foldl Item.apply dm₀.view ∧
      (order : Multiset Item) =
        dues dm₀.pmtIdMap (messages currentCounter (journal service currentCounter dm₀ ls)) := by
  obtain ⟨lost, hsum, hlost⟩ := conserved service currentCounter ls h₀
  refine ⟨_, view_exec service currentCounter ls h₀, ?_⟩
  rw [← hsum, hdrained.owed, hlost hnone, zero_add, add_zero]

theorem exactly_once_sampleRun :
    let ls := sampleRun sampleMessages
    ∃ order : List Item,
      (exec (fun _ => .idod) 0 (.empty ∅) ls).dataModel.view =
        order.foldl Item.apply (DataModel.empty ∅).view ∧
      (order : Multiset Item) = dues ∅ (messages 0 (journal (fun _ => .idod) 0 (.empty ∅) ls)) :=
  exactly_once _ 0 _ Aggregation.distinct_empty ⟨rfl, rfl⟩
    (failed_notMem_journal _ 0 _ (finish_notMem_sampleRun _))

/-- **At most once.** In every state of every run, whatever has been given up, what has been written
    are items of accepted messages, no item twice. -/
theorem at_most_once (h₀ : dm₀.Distinct) :
    ∃ order : List Item,
      (exec service currentCounter dm₀ ls).dataModel.view = order.foldl Item.apply dm₀.view ∧
      (order : Multiset Item) ≤
        dues dm₀.pmtIdMap (messages currentCounter (journal service currentCounter dm₀ ls)) := by
  obtain ⟨lost, hsum, -⟩ := conserved service currentCounter ls h₀
  refine ⟨_, view_exec service currentCounter ls h₀, ?_⟩
  rw [← hsum, add_comm (owed _ _), add_assoc]
  exact Multiset.le_add_right _ _

/-- A job is given up in the middle of its upload. -/
theorem at_most_once_givenUp :
    let ls : List (Label Unit) := (sampleRun sampleMessages).take 16 ++ [.finish 1 false]
    let es := journal (fun _ => .idod) 0 (.empty ∅) ls
    .failed ∈ es ∧ ∃ order : List Item,
      (exec (fun _ => .idod) 0 (.empty ∅) ls).dataModel.view =
        order.foldl Item.apply (DataModel.empty ∅).view ∧
      (order : Multiset Item) ≤ dues ∅ (messages 0 es) := by
  refine ⟨?_, at_most_once _ 0 _ Aggregation.distinct_empty⟩
  rw [journal, Runs.journal_concat]
  exact List.mem_append_right _ (List.mem_singleton.mpr rfl)

end Pipeline
end HkRbu
