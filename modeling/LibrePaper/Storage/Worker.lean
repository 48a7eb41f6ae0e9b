import LibrePaper.Storage.Schedule

/-!
# The background worker

One loop that takes tasks from its local queue, from a bounded channel and from the deadline
map, and walks durable state in pages. A task that the channel or the map turns away is left
to a rescan of durable state.
-/
namespace LibrePaper.Storage

/-- The ids of one kind of pending work, in order; no row has the nil id. -/
structure Ids where
  list : List ℕ
  sorted : list.Pairwise (· < ·)
  positive : ∀ id ∈ list, 0 < id

/-- What durable state names as pending, and when the earliest superseded base is due. -/
structure Catalog where
  compaction : Ids
  deleting : Ids
  archives : Ids
  erasing : Ids
  supersededBaseDue : Option ℕ

/-- What one page of the scan found. -/
structure PendingWork where
  compaction : List ℕ
  deleting : List ℕ
  archives : List ℕ
  erasing : List ℕ
  next : PendingWorkCursor
  supersededBaseDue : Option ℕ

/-- The page of ids and the cursor after it, which exists only when the extra row came back. -/
def splitIds (rows : List ℕ) (limit : ℕ) : List ℕ × Option ℕ :=
  (rows.take limit, if limit < rows.length then (rows.take limit).getLast? else none)

def Ids.page (ids : Ids) (limit : ℕ) : Option ℕ → List ℕ × Option ℕ
  | none => ([], none)
  | some after => splitIds ((ids.list.filter fun id => after < id).take (limit + 1)) limit

def Catalog.pendingBackgroundWork (catalog : Catalog) (after : PendingWorkCursor) (limit : ℕ) :
    PendingWork where
  compaction := (catalog.compaction.page limit after.compaction).1
  deleting := (catalog.deleting.page limit after.deleting).1
  archives := (catalog.archives.page limit after.archives).1
  erasing := (catalog.erasing.page limit after.erasing).1
  next :=
    { compaction := (catalog.compaction.page limit after.compaction).2
      deleting := (catalog.deleting.page limit after.deleting).2
      archives := (catalog.archives.page limit after.archives).2
      erasing := (catalog.erasing.page limit after.erasing).2 }
  supersededBaseDue := catalog.supersededBaseDue

structure ScanPage where
  tasks : List Task
  next : Option PendingWorkCursor
  supersededBaseDue : Option ℕ

def PAGE : ℕ := 64

/-- One bounded page; the continuation sits behind its work. -/
def Catalog.scan (catalog : Catalog) (cursor : PendingWorkCursor) : ScanPage :=
  let pending := catalog.pendingBackgroundWork cursor PAGE
  { tasks := pending.compaction.map .compact ++ pending.deleting.map .delete ++
      pending.erasing.map (fun account => .eraseAccount account 0) ++ pending.archives.map .archive
    next := if pending.next.continues then some pending.next else none
    supersededBaseDue := pending.supersededBaseDue }

/-- Durable state names the task: a scan of all of it comes upon the task, or upon its
`finder`. A fresh scan and the orphan sweep are never without work. -/
def Catalog.names (catalog : Catalog) : Task → Bool
  | .scan cursor => cursor = {}
  | .compact document => document ∈ catalog.compaction.list
  | .archive label => label ∈ catalog.archives.list
  | .delete document => document ∈ catalog.deleting.list
  | .eraseAccount account _ => account ∈ catalog.erasing.list
  | .sweepSupersededBases => catalog.supersededBaseDue.isSome
  | .sweepOrphans => true

/-- The task under which a scan finds the work: an erasure starts over from its first page. -/
def finder : Task → Task
  | .eraseAccount account _ => .eraseAccount account 0
  | task => task

def Task.isScan : Task → Bool
  | .scan _ => true
  | _ => false

def QUEUE : ℕ := 256
def ORPHAN_SWEEP_INTERVAL : ℕ := 60 * 60

/-- Where the worker is in its loop. -/
inductive Phase where
  | boot
  | booting
  | top
  | select
  | popped (task : Task)
  | checking (document : ℕ)
  | running (task : Task)
  | settling
  | settled
deriving DecidableEq

/-- The worker and what drives it. `refusing` counts the asks that a full channel turned away
and that have yet to set the bit. The last five fields are only observed: the tasks that were
asked for and not begun since, when each was last refused, the passes over durable state with
the moment each began, the failures of each task since it last succeeded, and the moments
themselves. -/
structure World where
  now : ℕ := 0
  channel : List Task := []
  refusing : ℕ := 0
  rescan : Bool := false
  localQueue : List Task := []
  deadlines : Deadlines := {}
  orphanSweepNotBefore : Option ℕ := none
  startup : Bool := true
  phase : Phase := .boot
  catalog : Catalog
  owed : List Task := []
  refusedAt : Task → Option ℕ := fun _ => none
  passes : List (PendingWorkCursor × ℕ) := []
  streak : Task → ℕ := fun _ => 0
  moment : ℕ := 0

namespace World

/-- The task is asked for; what durable state does not name is no work. -/
def owe (w : World) (task : Task) : World :=
  { w with owed := if w.catalog.names task then task :: w.owed else w.owed }

def turnAway (w : World) (task : Task) : World :=
  { w with refusedAt := Function.update w.refusedAt task (some w.moment) }

/-- `Handle::ask` up to its `try_send`; the bit is set later. -/
def ask (w : World) (task : Task) : World :=
  if w.channel.length < QUEUE then ({ w with channel := w.channel ++ [task] }).owe task
  else (({ w with refusing := w.refusing + 1 }).turnAway task).owe task

/-- The rest of `Handle::ask` for a task that was turned away. -/
def flag (w : World) : World := { w with refusing := w.refusing - 1, rescan := true }

/-- `Handle::ask` as the worker calls it before its loop. -/
def askAtStart (w : World) (task : Task) : World :=
  if w.channel.length < QUEUE then w.ask task else (w.ask task).flag

/-- A new deadline map; a deadline that it refused turns the task away. -/
def keep (w : World) (task : Task) (d : Deadlines) : World :=
  { w with
    deadlines := d
    refusedAt :=
      if w.deadlines.refused < d.refused then (w.turnAway task).refusedAt else w.refusedAt }

def scheduleAt (w : World) (due : ℕ) (task : Task) : World :=
  w.keep task (w.deadlines.at task (w.now + (due - w.now)))

/-- The orphan sweep, unless it is queued or waits already. -/
def enqueueOrphanSweep (w : World) : World :=
  if .sweepOrphans ∈ w.localQueue || w.deadlines.waiting .sweepOrphans w.now then w
  else
    match w.orphanSweepNotBefore.filter fun due => w.now < due with
    | some due => w.keep .sweepOrphans (w.deadlines.at .sweepOrphans due)
    | none => { w with localQueue := w.localQueue ++ [.sweepOrphans] }

/-- A cursor continuation cannot stand in for a fresh full pass. -/
def freshScan (w : World) : World :=
  if w.localQueue.any Task.isScan then { w with rescan := true }
  else { w with localQueue := w.localQueue ++ [.scan {}] }

def enqueueDueRescan (w : World) : World := w.enqueueOrphanSweep.freshScan

def enqueue (queue : List Task) (task : Task) : List Task :=
  if task ∈ queue then queue else queue ++ [task]

/-- Moves everything that has come due into the local queue; `order` is the map's order. -/
def fireDue (w : World) (order : List Task) : World :=
  let fired := { w with
    deadlines := w.deadlines.due w.now
    localQueue := order.foldl enqueue w.localQueue }
  if w.deadlines.rescanDue w.now then fired.enqueueDueRescan else fired

/-- The task begins. A fresh scan begins a pass, and an orphan sweep asks for one. -/
def run (w : World) (task : Task) : World :=
  { w with
    phase := .running task
    rescan := w.rescan || task = .sweepOrphans
    owed := w.owed.filter fun other => other ≠ task ∧ finder other ≠ task
    passes := if task = .scan {} then ({}, w.moment) :: w.passes else w.passes
    moment := w.moment + 1 }

/-- A task that waits out a deadline is dropped, except that a deletion in its grace period
is looked up again. -/
def process (w : World) (task : Task) : World :=
  if w.deadlines.waiting task w.now then
    match task with
    | .delete document =>
      if w.deadlines.failures task = 0 then { w with phase := .checking document }
      else { w with phase := .settling }
    | _ => { w with phase := .settling }
  else w.run task

def failed (w : World) (task : Task) : World :=
  let kept := (w.keep task (w.deadlines.failed task w.now)).owe task
  { kept with
    orphanSweepNotBefore :=
      if task = .sweepOrphans then some (w.now + w.deadlines.backoff task)
      else w.orphanSweepNotBefore
    streak := Function.update w.streak task (w.streak task + 1)
    phase := .settling }

def cleared (w : World) (task : Task) : World :=
  { w with
    deadlines := w.deadlines.clear task
    streak := Function.update w.streak task 0
    phase := .settling }

def finish (w : World) (task : Task) : World :=
  let done := w.cleared task
  if task = .sweepOrphans then
    ({ done with orphanSweepNotBefore := some (w.now + ORPHAN_SWEEP_INTERVAL) }).keep task
      (done.deadlines.at task (w.now + ORPHAN_SWEEP_INTERVAL))
  else done

/-- The passes that stand at a cursor go on to the next one, or are over. -/
def advance (cursor : PendingWorkCursor) (next : Option PendingWorkCursor)
    (passes : List (PendingWorkCursor × ℕ)) : List (PendingWorkCursor × ℕ) :=
  passes.filterMap fun p => if p.1 = cursor then next.map fun n => (n, p.2) else some p

/-- What a page puts behind its own work: the next page, or after the first full pass of the
process one more. -/
def follow (page : ScanPage) (startup : Bool) : List Task :=
  match page.next with
  | some next => [.scan next]
  | none => if startup then [.scan {}] else []

/-- A superseded base that a page found is swept when it is due. -/
def noticeSuperseded (w : World) : Option ℕ → World
  | some due => w.scheduleAt due .sweepSupersededBases
  | none => w

/-- A page was read. -/
def scanned (w : World) (cursor : PendingWorkCursor) : World :=
  let page := w.catalog.scan cursor
  { (w.cleared (.scan cursor)).noticeSuperseded page.supersededBaseDue with
    localQueue := w.localQueue ++ page.tasks ++ follow page w.startup
    startup := w.startup && page.next.isSome
    passes := advance cursor page.next w.passes }

/-- `enqueue_overflow_scan` up to the point where it takes the bit. -/
def overflow (w : World) : World :=
  { (if w.rescan then w.enqueueOrphanSweep else w) with phase := .settled }

/-- A cursor continuation does not consume the bit. -/
def takeRescan (w : World) : World :=
  if w.localQueue.any Task.isScan then { w with phase := .top }
  else if w.rescan then
    { w with rescan := false, localQueue := w.localQueue ++ [.scan {}], phase := .top }
  else { w with phase := .top }

end World

/-- What happens next: time passes, somebody asks, durable state changes, or the worker takes
its next step. `order`, `answer`, `due` and the choice between `finish` and `fail` are what the
map's order, the catalogue and the task's own work come to. -/
inductive Op where
  | tick (seconds : ℕ)
  | ask (task : Task)
  | flag
  | change (catalog : Catalog)
  | start
  | fire (order : List Task)
  | pop
  | receive
  | wake
  | process
  | checked (answer : Option Bool)
  | schedule (due : ℕ)
  | remove
  | page
  | finish
  | fail
  | overflow
  | takeRescan

/-- One step. Only a deletion and a sweep of superseded bases schedule themselves while they
run, and a deletion forgets its reminder once the document is gone. -/
def World.step (w : World) : Op → Option World
  | .tick seconds => some { w with now := w.now + seconds }
  | .ask task => some (w.ask task)
  | .flag => if 0 < w.refusing then some w.flag else none
  | .change catalog => some { w with catalog := catalog, owed := w.owed.filter catalog.names }
  | .start =>
    match w.phase with
    | .boot => some { w.askAtStart (.scan {}) with phase := .booting }
    | .booting => some { w.askAtStart .sweepOrphans with phase := .top }
    | _ => none
  | .fire order =>
    if w.phase = .top ∧ order.isPerm (w.deadlines.dueTasks w.now) then
      some { w.fireDue order with phase := .select }
    else none
  | .pop =>
    match w.phase, w.localQueue with
    | .select, task :: rest => some { w with localQueue := rest, phase := .popped task }
    | _, _ => none
  | .receive =>
    match w.phase, w.localQueue, w.channel with
    | .select, [], task :: rest => some { w with channel := rest, phase := .popped task }
    | _, _, _ => none
  | .wake =>
    if w.phase = .select ∧ w.localQueue = [] ∧ w.deadlines.next.any (· ≤ w.now) then
      some { w with phase := .top }
    else none
  | .process =>
    match w.phase with
    | .popped task => some (w.process task)
    | _ => none
  | .checked answer =>
    match w.phase, answer with
    | .checking document, none => some (w.failed (.delete document))
    | .checking document, some true => some (w.run (.delete document))
    | .checking _, some false => some { w with phase := .settling }
    | _, _ => none
  | .schedule due =>
    match w.phase with
    | .running (.delete document) =>
      some ((w.scheduleAt due (.delete document)).owe (.delete document))
    | .running .sweepSupersededBases =>
      some ((w.scheduleAt due .sweepSupersededBases).owe .sweepSupersededBases)
    | _ => none
  | .remove =>
    match w.phase with
    | .running (.delete document) =>
      if document ∈ w.catalog.deleting.list then none
      else some { w with deadlines := w.deadlines.remove (.delete document) }
    | _ => none
  | .page =>
    match w.phase with
    | .running (.scan cursor) => some (w.scanned cursor)
    | _ => none
  | .finish =>
    match w.phase with
    | .running task => if task.isScan then none else some (w.finish task)
    | _ => none
  | .fail =>
    match w.phase with
    | .running task => some (w.failed task)
    | _ => none
  | .overflow => if w.phase = .settling then some w.overflow else none
  | .takeRescan => if w.phase = .settled then some w.takeRescan else none

/-- A run of the worker. -/
def World.steps (w : World) : List Op → Option World
  | [] => some w
  | op :: ops => (w.step op).bind fun w' => w'.steps ops

/-- The world in which a worker starts. -/
def World.initial (catalog : Catalog) : World := { catalog := catalog }

def Reachable (w : World) : Prop :=
  ∃ catalog ops, (World.initial catalog).steps ops = some w

end LibrePaper.Storage
