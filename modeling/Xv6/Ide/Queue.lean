import Xv6.Lib.History
import Xv6.Lib.SList
import Xv6.Bio.Cache

/-!
# The disk request queue

`ide.c`: `iderw` appends a buffer to `idequeue`, starts the disk if the queue was empty,
and sleeps until the buffer is valid and not dirty; the interrupt handler `ideintr`
finishes the request at the head and starts the next one. Both run under `idelock`, which
`sleep` gives up, so what the lock protects is one step of the system.

Processes and buffers are of arbitrary types. The drive is the list of commands it was
given and has not answered: an interrupt answers the first one. What the driver does is
also written to a log, in which the results are stated.
-/

namespace Xv6.Ide

open Xv6.Lib Xv6.Bio
open Function (update update_of_ne update_self)

/-- `IDE_CMD_READ` and `IDE_CMD_WRITE`. -/
inductive Dir where
  | read
  | write
  deriving DecidableEq, Repr

/-- The ports `0x1f3` to `0x1f6`, which name a sector of a drive. -/
structure Address where
  low : BitVec 8
  mid : BitVec 8
  high : BitVec 8
  drive : BitVec 8
  deriving DecidableEq, Repr

/-- A command given to the drive. -/
structure Command (D : Type) where
  dir : Dir
  address : Address
  data : D

/-- The panics of `iderw`. -/
inductive Panic where
  /-- `iderw: buf not busy` -/
  | notBusy
  /-- `iderw: nothing to do` -/
  | nothingToDo
  /-- `iderw: ide disk 1 not present` -/
  | noDisk1
  deriving DecidableEq, Repr

/-- Where a process is with respect to `iderw`. -/
inductive Call (B : Type) where
  | idle
  /-- in `sleep(b, &idelock)` -/
  | asleep (b : B)
  /-- woken up, about to test the flags of `b` again -/
  | awake (b : B)
  | panicked (why : Panic)
  deriving DecidableEq, Repr

/-- The buffer that the process is in `iderw` with. -/
def Call.buffer {B : Type} : Call B → Option B
  | asleep b | awake b => some b
  | _ => none

/-- What the driver does, as the log records it. -/
inductive Obs (P B : Type) where
  /-- `iderw` of the process put the buffer at the end of the queue -/
  | appended (p : P) (b : B)
  /-- `idestart` gave the drive the command for the buffer -/
  | started (b : B) (dir : Dir)
  /-- `ideintr` finished the transfer of the buffer -/
  | completed (b : B) (dir : Dir)
  /-- `iderw` returned, with these flags of the buffer -/
  | returned (p : P) (b : B) (flags : Flags)
  deriving DecidableEq, Repr

structure State (P B D : Type) where
  idequeue : Option B
  qnext : B → Option B
  buf : B → Buf D
  disk : Address → D
  /-- the commands that the drive has not answered -/
  issued : List (Command D)
  call : P → Call B
  log : List (Obs P B)

/-- The process `p` calls `iderw`, is woken up by something else than `ideintr`, or runs again after a wakeup; somebody
changes a buffer; the drive answers a command, with or without an error. -/
inductive Event (P B D : Type) where
  | iderw (p : P) (b : B)
  | wake (p : P)
  | recheck (p : P)
  | change (b : B) (r : Buf D)
  | interrupt (err : Bool)

section
variable {P B D : Type}

/-- `(b->flags & (B_VALID|B_DIRTY)) == B_VALID`. -/
def ready (f : Flags) : Prop := f.valid = true ∧ f.dirty = false

instance (f : Flags) : Decidable (ready f) := instDecidableAnd

/-- The direction in which `idestart` and `ideintr` transfer a buffer. -/
def direction (r : Buf D) : Dir := if r.flags.dirty then .write else .read

/-- What `idestart` writes to the ports `0x1f3` to `0x1f6`. -/
def address (r : Buf D) : Address where
  low := (r.sector &&& 0xff).truncate 8
  mid := ((r.sector >>> 8) &&& 0xff).truncate 8
  high := ((r.sector >>> 16) &&& 0xff).truncate 8
  drive := (0xe0 ||| ((r.dev &&& 1) <<< 4) ||| ((r.sector >>> 24) &&& 0x0f)).truncate 8

/-- The command that `idestart` gives for a buffer. -/
def command (r : Buf D) : Command D := ⟨direction r, address r, r.data⟩

namespace State

def observe (s : State P B D) (o : Obs P B) : State P B D := { s with log := s.log ++ [o] }

/-- `idestart`. -/
def idestart (s : State P B D) (b : B) : State P B D :=
  { s with issued := s.issued ++ [command (s.buf b)] }.observe (.started b (direction (s.buf b)))

variable [DecidableEq P] [DecidableEq B]

def setCall (s : State P B D) (p : P) (c : Call B) : State P B D := { s with call := update s.call p c }

def setBuf (s : State P B D) (b : B) (r : Buf D) : State P B D := { s with buf := update s.buf b r }

/-- `wakeup(b)`. -/
def wakeup (s : State P B D) (b : B) : State P B D :=
  { s with call := fun p => if s.call p = .asleep b then .awake b else s.call p }

/-- The test of the loop in `iderw`, and what follows it: the call returns, or sleeps. -/
def waitLoop (s : State P B D) (p : P) (b : B) : State P B D :=
  if ready (s.buf b).flags then (s.setCall p .idle).observe (.returned p b (s.buf b).flags)
  else s.setCall p (.asleep b)

/-- `b->qnext = 0` and the walk to the end of the queue. -/
def append [Fintype B] (s : State P B D) (b : B) : Option (State P B D) :=
  let qnext := update s.qnext b none
  (lastSlot qnext s.idequeue (Fintype.card B + 1) none).map fun pp =>
    { s with
      qnext := (storeSlot qnext s.idequeue pp b).1
      idequeue := (storeSlot qnext s.idequeue pp b).2 }

/-- `if(idequeue == b) idestart(b)`. -/
def kick (s : State P B D) (b : B) : State P B D := if s.idequeue = some b then s.idestart b else s

/-- `iderw`, up to where it first returns or sleeps. -/
def iderw [Fintype B] (havedisk1 : Bool) (s : State P B D) (p : P) (b : B) : Option (State P B D) :=
  if (s.buf b).flags.busy = false then some (s.setCall p (.panicked .notBusy))
  else if ready (s.buf b).flags then some (s.setCall p (.panicked .nothingToDo))
  else if (s.buf b).dev ≠ 0 ∧ havedisk1 = false then some (s.setCall p (.panicked .noDisk1))
  else (s.append b).map fun s => ((s.observe (.appended p b)).kick b).waitLoop p b

/-- The end of `ideintr`: `if(idequeue != 0) idestart(idequeue)`. -/
def startNext (s : State P B D) : State P B D :=
  match s.idequeue with
  | none => s
  | some b => s.idestart b

/-- The buffer after `ideintr`; `port` is what the drive gives to `insl`, and `err` makes `idewait(1)` fail. -/
def finished (r : Buf D) (err : Bool) (port : D) : Buf D :=
  let r := if r.flags.dirty = false ∧ err = false then { r with data := port } else r
  { r with flags := { r.flags with valid := true, dirty := false } }

/-- `ideintr`. -/
def ideintr (s : State P B D) (err : Bool) (port : D) : State P B D :=
  match s.idequeue with
  | none => s
  | some b =>
    let dir := direction (s.buf b)
    let s := { s with idequeue := s.qnext b }
    let s := s.setBuf b (finished (s.buf b) err port)
    -- after an error a read has transferred nothing
    let s := if dir = .read ∧ err = true then s else s.observe (.completed b dir)
    (s.wakeup b).startNext

/-- The sectors after the drive has carried out a command. -/
def carryOut (disk : Address → D) (c : Command D) (err : Bool) : Address → D :=
  if c.dir = .write ∧ err = false then update disk c.address c.data else disk

/-- The drive answers the command `c`. -/
def interrupt (s : State P B D) (c : Command D) (rest : List (Command D)) (err : Bool) : State P B D :=
  let disk := carryOut s.disk c err
  { s with disk := disk, issued := rest }.ideintr err (disk c.address)

end State

open Ide.State

variable [DecidableEq P] [DecidableEq B] [Fintype B]

/-- A step of the system. -/
def step (havedisk1 : Bool) (s : State P B D) : Event P B D → Option (State P B D)
  | .iderw p b => if s.call p = .idle then s.iderw havedisk1 p b else none
  | .wake p => match s.call p with
    | .asleep b => some (s.setCall p (.awake b))
    | _ => none
  | .recheck p => match s.call p with
    | .awake b => some (s.waitLoop p b)
    | _ => none
  | .change b r => some (s.setBuf b r)
  | .interrupt err => match s.issued with
    | [] => none
    | c :: rest => some (s.interrupt c rest err)

/-- The calls are on distinct busy buffers, which nobody changes meanwhile, and the drive reports no error. -/
def Allowed (s : State P B D) : Event P B D → Prop
  | .iderw _ b => (s.buf b).flags.busy = true ∧ ∀ q, (s.call q).buffer ≠ some b
  | .change b _ => ∀ q, (s.call q).buffer ≠ some b
  | .interrupt err => err = false
  | _ => True

instance [Fintype P] (s : State P B D) : (e : Event P B D) → Decidable (Allowed s e)
  | .iderw _ _ => instDecidableAnd
  | .change _ _ => Fintype.decidableForallFintype
  | .interrupt _ => instDecidableEqBool _ _
  | .wake _ => instDecidableTrue
  | .recheck _ => instDecidableTrue

/-- The driver before its first request. -/
def initial (buf : B → Buf D) (qnext : B → Option B) (disk : Address → D) : State P B D :=
  ⟨none, qnext, buf, disk, [], fun _ => .idle, []⟩

end

/-! ## The log -/

section
variable {P B : Type}

def Obs.append? : Obs P B → Option B
  | .appended _ b => some b
  | _ => none

def Obs.start? : Obs P B → Option (B × Dir)
  | .started b dir => some (b, dir)
  | _ => none

def Obs.complete? : Obs P B → Option (B × Dir)
  | .completed b dir => some (b, dir)
  | _ => none

variable [DecidableEq B]

/-- The observations about the requests of a buffer. -/
def Obs.about (b : B) : Obs P B → Bool
  | .appended _ b' | .started b' _ | .completed b' _ => b' = b
  | .returned _ _ _ => false

end

/-! ## What holds in every state -/

section
open Ide.State

variable {P B D : Type} {s s' : State P B D} {l : List B} {p : P} {b : B}

/-- `idequeue` is the list `l`; its buffers are those whose transfer is not finished, each in the hands of one process;
the drive works on the first one. -/
structure Queued (s : State P B D) (l : List B) : Prop where
  links : IsSList s.qnext s.idequeue l
  issued : s.issued = (l.head?.map fun b => command (s.buf b)).toList
  owned : ∀ b ∈ l, ∃ p, (s.call p).buffer = some b
  alone : ∀ p q b, (s.call p).buffer = some b → (s.call q).buffer = some b → p = q
  undone : ∀ b ∈ l, ¬ ready (s.buf b).flags
  done : ∀ p b, (s.call p).buffer = some b → b ∉ l → ready (s.buf b).flags
  /-- no wakeup is lost -/
  asleep : ∀ p b, s.call p = .asleep b → b ∈ l

/-- A step that moves calls only, each with its buffer. -/
theorem Queued.setCalls (queued : Queued s l) {call : P → Call B} (same : ∀ p, (call p).buffer = (s.call p).buffer)
    (asleep : ∀ p b, call p = .asleep b → b ∈ l) : Queued { s with call := call } l where
  links := queued.links
  issued := queued.issued
  owned b member := by
    obtain ⟨p, inside⟩ := queued.owned b member
    exact ⟨p, (same p).trans inside⟩
  alone p q b inside inside' := queued.alone p q b ((same p).symm.trans inside) ((same q).symm.trans inside')
  undone := queued.undone
  done p b inside := queued.done p b ((same p).symm.trans inside)
  asleep := asleep

theorem update_buffer [DecidableEq P] {c : Call B} (same : c.buffer = (s.call p).buffer) (q : P) :
    (update s.call p c q).buffer = (s.call q).buffer := by
  by_cases this : q = p
  · subst this
    rw [update_self, same]
  · rw [update_of_ne this]

variable [DecidableEq B]

/-- How far the log says that the last request of the buffer has come. -/
def Progress (l : List B) (r : Buf D) (b : B) (tail : List (Obs P B)) : Prop :=
  if b ∈ l then tail = if l.head? = some b then [.started b (direction r)] else []
  else ∃ dir, tail = [.started b dir, .completed b dir]

/-- The last request of the buffer is the one of the process, and it is where the queue says. -/
def Follows (log : List (Obs P B)) (l : List B) (r : Buf D) (p : P) (b : B) : Prop :=
  ∃ past tail, log.filter (Obs.about b) = past ++ .appended p b :: tail ∧ Progress l r b tail

/-- Whenever `iderw` returned, the buffer was valid and not dirty, and the last that had happened to the buffer was its
request: appended by this process, started, and completed in the same direction. -/
def Returns : List (Obs P B) → Prop := AtEach fun pre o => ∀ p b f, o = .returned p b f →
  ready f ∧ ∃ past dir, pre.filter (Obs.about b) = past ++ [.appended p b, .started b dir, .completed b dir]

/-- What the log has to do with the queue. -/
structure Told (s : State P B D) (l : List B) : Prop where
  order : s.log.filterMap Obs.append? = (s.log.filterMap Obs.complete?).map Prod.fst ++ l
  starts : s.log.filterMap Obs.start? =
    s.log.filterMap Obs.complete? ++ (l.head?.map fun b => (b, direction (s.buf b))).toList
  follows : ∀ p b, (s.call p).buffer = some b → Follows s.log l (s.buf b) p b
  returns : Returns s.log

theorem Told.setCalls (told : Told s l) {call : P → Call B} (same : ∀ p, (call p).buffer = (s.call p).buffer) :
    Told { s with call := call } l where
  order := told.order
  starts := told.starts
  follows p b inside := told.follows p b ((same p).symm.trans inside)
  returns := told.returns

/-- The queue and the log, together. -/
def Good (s : State P B D) : Prop := ∃ l, Queued s l ∧ Told s l

theorem Good.change (queued : Queued s l) (told : Told s l) (free : ∀ q, (s.call q).buffer ≠ some b) (r : Buf D) :
    Good (s.setBuf b r) := by
  have outside : b ∉ l := fun member => by
    obtain ⟨q, inside⟩ := queued.owned b member
    exact free q inside
  have kept {a : B} (ne : a ≠ b) : (s.setBuf b r).buf a = s.buf a := update_of_ne ne _ _
  have head {β : Type} (f : B → Buf D → β) :
      l.head?.map (fun a => f a ((s.setBuf b r).buf a)) = l.head?.map fun a => f a (s.buf a) := by
    cases l with
    | nil => rfl
    | cons a l =>
      have ne : a ≠ b := fun same => outside (by simp [same])
      simp [kept ne]
  refine ⟨l, ⟨queued.links, ?_, queued.owned, queued.alone, fun a member => ?_, fun q a inside out => ?_, queued.asleep⟩,
    ⟨told.order, ?_, fun q a inside => ?_, told.returns⟩⟩
  · rw [head fun _ r => command r]
    exact queued.issued
  · rw [kept fun same => outside (same ▸ member)]
    exact queued.undone a member
  · rw [kept fun same => free q (same ▸ inside)]
    exact queued.done q a inside out
  · rw [head fun a r => (a, direction r)]
    exact told.starts
  · rw [kept fun same => free q (same ▸ inside)]
    exact told.follows q a inside

theorem Queued.append [Fintype B] (queued : Queued s l) (outside : b ∉ l) : ∃ next head,
    s.append b = some { s with qnext := next, idequeue := head } ∧ IsSList next head (l ++ [b]) := by
  have links : IsSList (update s.qnext b none) s.idequeue l :=
    queued.links.congr fun a member => update_of_ne (show a ≠ b from fun same => outside (same ▸ member)) _ _
  have short : l.length < Fintype.card B + 1 := Nat.lt_succ_of_le links.nodup.length_le_card
  exact ⟨_, _, by rw [State.append, links.lastSlot short]; rfl, links.append outside (update_self _ _ _)⟩

theorem wakeup_buffer (b : B) (q : P) :
    (if s.call q = .asleep b then Call.awake b else s.call q).buffer = (s.call q).buffer := by
  split_ifs with sleeps
  · rw [sleeps]
    rfl
  · rfl

/-- The state after `ideintr` has finished the request at the head and started the next one. -/
theorem Good.completed (queued : Queued s (b :: l)) (told : Told s (b :: l)) {r : Buf D} (done : ready r.flags)
    (disk : Address → D) :
    Good { s with
      idequeue := s.qnext b
      disk := disk
      buf := update s.buf b r
      issued := (l.head?.map fun a => command (s.buf a)).toList
      log := s.log ++ .completed b (direction (s.buf b)) ::
        (l.head?.map fun a => .started a (direction (s.buf a))).toList
      call := fun q => if s.call q = .asleep b then .awake b else s.call q } := by
  obtain ⟨fresh, nodup⟩ := List.nodup_cons.1 queued.links.nodup
  have kept {a : B} (ne : a ≠ b) : update s.buf b r a = s.buf a := update_of_ne ne _ _
  have ne_of_mem {a : B} (member : a ∈ l) : a ≠ b := fun same => fresh (same ▸ member)
  have head {β : Type} (f : B → Buf D → β) :
      l.head?.map (fun a => f a (update s.buf b r a)) = l.head?.map fun a => f a (s.buf a) := by
    cases l with
    | nil => rfl
    | cons a l => simp [kept (ne_of_mem List.mem_cons_self)]
  refine ⟨l, ⟨queued.links.2, ?_, fun a member => ?_, fun q q' a h h' => ?_, fun a member => ?_, fun q a h out => ?_,
    fun q a h => ?_⟩, ⟨?_, ?_, fun q a h => ?_, ?_⟩⟩
  · rw [head fun _ r => command r]
  · obtain ⟨q, inside⟩ := queued.owned a (List.mem_cons_of_mem _ member)
    exact ⟨q, (wakeup_buffer b q).trans inside⟩
  · exact queued.alone q q' a ((wakeup_buffer b q).symm.trans h) ((wakeup_buffer b q').symm.trans h')
  · dsimp only
    rw [kept (ne_of_mem member)]
    exact queued.undone a (List.mem_cons_of_mem _ member)
  · by_cases same : a = b
    · subst same
      simpa using done
    · dsimp only
      rw [kept same]
      exact queued.done q a ((wakeup_buffer b q).symm.trans h) (by simp [same, out])
  · dsimp only at h
    split_ifs at h with sleeps
    have member := queued.asleep q a h
    refine (List.mem_cons.1 member).resolve_left fun same => ?_
    exact sleeps (same ▸ h)
  · have := told.order
    cases l <;> simp [List.filterMap_cons, Obs.append?, Obs.complete?, this]
  · rw [head fun a r => (a, direction r)]
    have := told.starts
    cases l <;> simp [List.filterMap_cons, Obs.start?, Obs.complete?, this]
  · obtain ⟨past, tail, split, progress⟩ := told.follows q a ((wakeup_buffer b q).symm.trans h)
    by_cases same : a = b
    · -- the request that was in progress
      subst same
      refine ⟨past, tail ++ [.completed a (direction (s.buf a))], ?_, ?_⟩
      · cases l with
        | nil => simp [Obs.about, split]
        | cons c l => simp [Obs.about, split, ne_of_mem]
      · simp only [Progress, List.mem_cons_self, List.head?_cons, if_true] at progress
        rw [Progress, if_neg fresh, progress]
        exact ⟨_, rfl⟩
    · refine ⟨past, tail ++ if l.head? = some a then [.started a (direction (s.buf a))] else [], ?_, ?_⟩
      · cases l with
        | nil => simp [Obs.about, split, Ne.symm same]
        | cons c l =>
          by_cases next : c = a
          · simp [Obs.about, split, Ne.symm same, next]
          · simp [Obs.about, split, Ne.symm same, next]
      · dsimp only
        rw [kept same]
        simp only [Progress, List.mem_cons, same, false_or, List.head?_cons, Option.some.injEq, Ne.symm same, if_false] at progress ⊢
        split_ifs at progress ⊢ with member next next
        · simp [progress]
        · simp [progress]
        · exact absurd (List.mem_of_mem_head? next) member
        · simpa using progress
  · have first := told.returns.concat (x := .completed b (direction (s.buf b))) (by simp)
    cases l with
    | nil => exact first
    | cons a l =>
      have second := first.concat (x := .started a (direction (s.buf a))) (by simp)
      simpa [Returns] using second

/-- **The interrupt**, when the drive reports no error. -/
theorem Good.interrupt (queued : Queued s l) (told : Told s l) {c : Command D} {rest : List (Command D)}
    (issued : s.issued = c :: rest) : Good (s.interrupt c rest false) := by
  cases l with
  | nil =>
    rw [queued.issued] at issued
    cases issued
  | cons b l =>
    have alone := queued.issued.symm.trans issued
    simp only [List.head?_cons, Option.map_some, Option.toList_some, List.cons.injEq] at alone
    obtain ⟨_, rfl⟩ := alone
    have fresh := (List.nodup_cons.1 queued.links.nodup).1
    have good := Good.completed queued told (r := finished (s.buf b) false (carryOut s.disk c false c.address))
      ⟨rfl, rfl⟩ (carryOut s.disk c false)
    have next := queued.links.2.head_eq
    cases l with
    | nil =>
      simpa [State.interrupt, ideintr, queued.links.1, setBuf, observe, wakeup, startNext, next] using good
    | cons a l =>
      have ne : a ≠ b := fun same => fresh (by simp [same])
      simpa [State.interrupt, ideintr, queued.links.1, setBuf, observe, wakeup, startNext, next, idestart,
        update_of_ne ne] using good

variable [DecidableEq P]

/-- A call that moves on with its buffer. -/
theorem Good.move (queued : Queued s l) (told : Told s l) {c : Call B} (same : c.buffer = (s.call p).buffer)
    (asleep : ∀ b, c = .asleep b → b ∈ l) : Good (s.setCall p c) := by
  refine ⟨l, queued.setCalls (update_buffer same) fun q b sleeps => ?_, told.setCalls (update_buffer same)⟩
  by_cases this : q = p
  · subst this
    rw [update_self] at sleeps
    exact asleep b sleeps
  · rw [update_of_ne this] at sleeps
    exact queued.asleep q b sleeps

/-- The test of the flags, by a process that is awake. -/
theorem Good.waitLoop (queued : Queued s l) (told : Told s l) (awake : s.call p = .awake b) : Good (s.waitLoop p b) := by
  have inside : (s.call p).buffer = some b := by rw [awake]; rfl
  unfold State.waitLoop
  split_ifs with flags
  · have outside : b ∉ l := fun member => queued.undone b member flags
    have idle (q : P) (a : B) (h : (update s.call p Call.idle q).buffer = some a) : q ≠ p ∧ (s.call q).buffer = some a := by
      by_cases this : q = p
      · subst this
        rw [update_self] at h
        cases h
      · rw [update_of_ne this] at h
        exact ⟨this, h⟩
    refine ⟨l, ⟨queued.links, queued.issued, fun a member => ?_, fun q q' a h h' => ?_, queued.undone,
      fun q a h => queued.done q a (idle q a h).2, fun q a h => ?_⟩, ⟨?_, ?_, fun q a h => ?_, ?_⟩⟩
    · obtain ⟨q, h⟩ := queued.owned a member
      have ne : q ≠ p := by
        rintro rfl
        cases inside.symm.trans h
        exact outside member
      exact ⟨q, by simpa [setCall, observe, update_of_ne ne] using h⟩
    · exact queued.alone q q' a (idle q a h).2 (idle q' a h').2
    · have ne := (idle q a (show (update s.call p Call.idle q).buffer = _ from (congrArg Call.buffer h))).1
      exact queued.asleep q a (by simpa [setCall, observe, update_of_ne ne] using h)
    · simpa [setCall, observe, List.filterMap_cons, Obs.append?, Obs.complete?] using told.order
    · simpa [setCall, observe, List.filterMap_cons, Obs.start?, Obs.complete?] using told.starts
    · obtain ⟨past, tail, split, progress⟩ := told.follows q a (idle q a h).2
      exact ⟨past, tail, by simpa [setCall, observe, Obs.about] using split, progress⟩
    · refine told.returns.concat fun p' b' f same => ?_
      cases same
      obtain ⟨past, tail, split, progress⟩ := told.follows p b inside
      rw [Progress, if_neg outside] at progress
      obtain ⟨dir, rfl⟩ := progress
      exact ⟨flags, past, dir, split⟩
  · refine Good.move queued told inside.symm fun a same => ?_
    cases same
    by_contra outside
    exact flags (queued.done p b inside outside)

/-- The state after `iderw` has appended the buffer, started the disk if the queue was empty, and gone to sleep. -/
theorem Good.appended (queued : Queued s l) (told : Told s l) (idle : s.call p = .idle)
    (free : ∀ q, (s.call q).buffer ≠ some b) (todo : ¬ ready (s.buf b).flags) {next : B → Option B} {head : Option B}
    (links : IsSList next head (l ++ [b])) :
    Good { s with
      qnext := next
      idequeue := head
      issued := s.issued ++ if l = [] then [command (s.buf b)] else []
      log := s.log ++ .appended p b :: if l = [] then [.started b (direction (s.buf b))] else []
      call := update s.call p (.asleep b) } := by
  have outside : b ∉ l := fun member => by
    obtain ⟨q, inside⟩ := queued.owned b member
    exact free q inside
  have old {q : P} {a : B} (inside : (s.call q).buffer = some a) : q ≠ p ∧ a ≠ b := by
    refine ⟨?_, fun same => free q (same ▸ inside)⟩
    rintro rfl
    rw [idle] at inside
    cases inside
  have called {q : P} {a : B} (h : (update s.call p (Call.asleep b) q).buffer = some a) :
      q = p ∧ a = b ∨ (s.call q).buffer = some a := by
    by_cases this : q = p
    · subst this
      rw [update_self] at h
      exact .inl ⟨rfl, (Option.some.inj h).symm⟩
    · rw [update_of_ne this] at h
      exact .inr h
  refine ⟨l ++ [b], ⟨links, ?_, fun a member => ?_, fun q q' a h h' => ?_, fun a member => ?_, fun q a h out => ?_,
    fun q a h => ?_⟩, ⟨?_, ?_, fun q a h => ?_, ?_⟩⟩
  · rw [queued.issued]
    cases l <;> simp
  · rcases List.mem_append.1 member with member | this
    · obtain ⟨q, inside⟩ := queued.owned a member
      exact ⟨q, by simpa [update_of_ne (old inside).1] using inside⟩
    · exact ⟨p, by simpa [Call.buffer] using (List.mem_singleton.1 this).symm⟩
  · rcases called h with ⟨rfl, rfl⟩ | inside <;> rcases called h' with ⟨rfl, same⟩ | inside'
    · rfl
    · exact absurd rfl (old inside').2
    · exact absurd same (old inside).2
    · exact queued.alone q q' a inside inside'
  · rcases List.mem_append.1 member with member | this
    · exact queued.undone a member
    · rw [List.mem_singleton.1 this]
      exact todo
  · rcases called h with ⟨_, rfl⟩ | inside
    · exact absurd (by simp) out
    · exact queued.done q a inside fun member => out (by simp [member])
  · by_cases this : q = p
    · subst this
      simp only [update_self, Call.asleep.injEq] at h
      simp [h]
    · simp only [update_of_ne this] at h
      simp [queued.asleep q a h]
  · have := told.order
    split_ifs <;> simp [List.filterMap_cons, Obs.append?, Obs.complete?, this]
  · have := told.starts
    cases l with
    | nil => simpa [List.filterMap_cons, Obs.start?, Obs.complete?] using this
    | cons a l => simpa [List.filterMap_cons, Obs.start?, Obs.complete?] using this
  · rcases called h with ⟨rfl, rfl⟩ | inside
    · refine ⟨_, _, by rw [List.filter_append, List.filter_cons_of_pos (by simp [Obs.about])], ?_⟩
      rw [Progress, if_pos (by simp)]
      cases l with
      | nil => simp [Obs.about]
      | cons c l =>
        have ne : c ≠ a := fun same => outside (by simp [same])
        simp [ne]
    · obtain ⟨past, tail, split, progress⟩ := told.follows q a inside
      have ne := (old inside).2
      refine ⟨past, tail, ?_, ?_⟩
      · split_ifs <;> simp [Obs.about, ne.symm, split]
      · cases l with
        | nil => simpa [Progress, ne] using progress
        | cons c l => simpa [Progress, ne] using progress
  · have first := told.returns.concat (x := .appended p b) (by simp)
    split_ifs
    · have second := first.concat (x := .started b (direction (s.buf b))) (by simp)
      simpa [Returns] using second
    · exact first

/-- **The call of `iderw`**, on a buffer that no other call is about. -/
theorem Good.iderw [Fintype B] (havedisk1 : Bool) (queued : Queued s l) (told : Told s l) (idle : s.call p = .idle)
    (free : ∀ q, (s.call q).buffer ≠ some b) : ∃ s', s.iderw havedisk1 p b = some s' ∧ Good s' := by
  have panic (why : Panic) : Good (s.setCall p (.panicked why)) :=
    Good.move queued told (by rw [idle]; rfl) fun a same => by cases same
  have outside : b ∉ l := fun member => by
    obtain ⟨q, inside⟩ := queued.owned b member
    exact free q inside
  unfold State.iderw
  split_ifs with busy flags present
  · exact ⟨_, rfl, panic _⟩
  · exact ⟨_, rfl, panic _⟩
  · exact ⟨_, rfl, panic _⟩
  · obtain ⟨next, head, appended, links⟩ := queued.append outside
    refine ⟨_, by rw [appended, Option.map_some], ?_⟩
    have good := Good.appended queued told idle free flags links
    have first : head = some b ↔ l = [] := by
      rw [links.head_eq]
      cases l with
      | nil => simp
      | cons a l =>
        have ne : a ≠ b := fun same => outside (by simp [same])
        simp [ne]
    by_cases empty : l = []
    · simpa [kick, observe, idestart, State.waitLoop, setCall, first.2 empty, empty, flags] using good
    · have busyDisk : head ≠ some b := fun same => empty (first.1 same)
      simpa [kick, observe, idestart, State.waitLoop, setCall, busyDisk, empty, flags] using good

variable [Fintype B] {havedisk1 : Bool} {tr : List (State P B D × Event P B D)}

/-- What one step keeps. -/
theorem Good.step {e : Event P B D} (good : Good s) (allowed : Allowed s e) (taken : step havedisk1 s e = some s') :
    Good s' := by
  obtain ⟨l, queued, told⟩ := good
  cases e with
  | iderw p b =>
    simp only [Ide.step] at taken
    split_ifs at taken with idle
    obtain ⟨t, is, good⟩ := Good.iderw havedisk1 queued told idle allowed.2
    cases is.symm.trans taken
    exact good
  | wake p =>
    simp only [Ide.step] at taken
    split at taken
    · next b sleeps =>
      cases taken
      exact Good.move queued told (by rw [sleeps]; rfl) fun a same => by cases same
    · cases taken
  | recheck p =>
    simp only [Ide.step] at taken
    split at taken
    · next b awake =>
      cases taken
      exact Good.waitLoop queued told awake
    · cases taken
  | change b r =>
    cases taken
    exact Good.change queued told allowed r
  | interrupt err =>
    simp only [Ide.step] at taken
    split at taken
    · cases taken
    · next c rest issued =>
      cases taken
      rw [show err = false from allowed]
      exact Good.interrupt queued told issued

end

end Xv6.Ide
