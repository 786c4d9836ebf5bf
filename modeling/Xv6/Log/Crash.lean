import Xv6.Log.Disk

/-!
# Crash atomicity of the log

A commit copies the blocks to the log, writes the header, installs the blocks and
clears the header. A disk that a crash leaves behind is in one of two phases: the
header is empty and the home sectors are all old or all new (`Settled`), or the
header names the transaction and the log holds its blocks (`Committed`). Recovery
keeps the phase when it is cut short and settles it when it completes.
-/

namespace Xv6.Log

open Xv6.Lib

variable {g : Geometry} {m : Machine} {lh : LogHeader} {d v : Disk} {b : Block}

/-! ## The log area -/

theorem Geometry.block_toNat {tail : Nat} (room : tail + 1 < g.size) :
    (g.block tail).toNat = g.start.toNat + (tail + 1) := by
  have fits := g.fits
  simp only [Geometry.block, BitVec.toNat_add, BitVec.toNat_ofNat]
  omega

theorem Geometry.block_inLog {tail : Nat} (room : tail + 1 < g.size) : g.InLog (g.block tail) := by
  unfold Geometry.InLog
  rw [g.block_toNat room]
  omega

theorem Geometry.block_ne_start {tail : Nat} (room : tail + 1 < g.size) : g.block tail ≠ g.start := by
  intro same
  have := g.block_toNat room
  rw [same] at this
  omega

theorem Geometry.start_inLog (some : 0 < g.size) : g.InLog g.start := by
  constructor <;> omega

/-! ## The header block -/

theorem headerCount_empty : headerCount (LogHeader.empty.store b) = 0 := rfl

theorem headerCount_store : headerCount (lh.store b) = lh.sector.length := by
  have bounded : lh.sector.length ≤ 30 := lh.bounded
  simp only [headerCount, LogHeader.store, Fin.val_zero, if_true]
  rw [BitVec.toInt_eq_toNat_of_lt] <;> simp only [BitVec.toNat_ofNat] <;> omega

/-- What `writeHead` stored, `readHead` loads. -/
theorem LogHeader.load_store : LogHeader.load (lh.store b) = some lh := by
  have bounded : lh.sector.length ≤ 30 := lh.bounded
  have count : (headerCount (lh.store b)).toNat = lh.sector.length := by rw [headerCount_store]; rfl
  have entries : (List.range lh.sector.length).map (fun i => lh.store b (Fin.ofNat 128 (i + 1))) = lh.sector := by
    apply List.ext_getElem
    · simp
    · intro i _ inside
      have small : (i + 1) % 128 = i + 1 := by omega
      simp [LogHeader.store, small, inside]
  unfold LogHeader.load
  rw [dif_pos (by rw [count]; exact lh.bounded)]
  cases lh
  simp_all

theorem LogHeader.load_empty (zero : headerCount b = 0) : LogHeader.load b = some .empty := by
  unfold LogHeader.load
  rw [dif_pos (by rw [zero]; simp)]
  simp [zero, LogHeader.empty]

/-! ## What each procedure writes -/

/-- The machine after the writes `ws`. -/
def Machine.writes (m : Machine) (ws : List (Sector × Block)) : Machine :=
  ws.foldl (fun m w => m.bwrite w.1 w.2) m

section
variable {ws vs : List (Sector × Block)}

theorem writes_append : m.writes (ws ++ vs) = (m.writes ws).writes vs := by
  simp [Machine.writes, List.foldl_append]

@[simp] theorem writes_disk : (m.writes ws).disk = applyWrites m.disk ws := by
  induction ws generalizing m with
  | nil => rfl
  | cons w ws ih => exact ih

@[simp] theorem writes_lh : (m.writes ws).lh = m.lh := by
  induction ws generalizing m with
  | nil => rfl
  | cons w ws ih => exact ih

@[simp] theorem writes_written : (m.writes ws).written = m.written ++ ws := by
  induction ws generalizing m with
  | nil => simp [Machine.writes]
  | cons w ws ih =>
    have first : (m.bwrite w.1 w.2).written = m.written ++ [w] := rfl
    exact (ih (m := m.bwrite w.1 w.2)).trans (by rw [first, List.append_assoc, List.singleton_append])

/-- A write never makes a buffer dirty. -/
theorem writes_dirty {s : Sector} (clean : m.dirty s = none) : (m.writes ws).dirty s = none := by
  induction ws generalizing m with
  | nil => exact clean
  | cons w ws ih =>
    apply ih
    by_cases same : s = w.1
    · simp [Machine.bwrite, same]
    · simpa [Machine.bwrite, same] using clean

end

theorem bread_bwrite {s t : Sector} (other : s ≠ t) : (m.bwrite t b).bread s = m.bread s := by
  simp [Machine.bread, Machine.bwrite, other]

theorem bread_clean {s : Sector} (clean : m.dirty s = none) : m.bread s = m.disk s := by
  simp [Machine.bread, clean]

/-- A copying loop whose sources are no targets writes what the sources held at its start. -/
theorem copy_loop {ι : Type} (l : List ι) (dst src : ι → Sector) (apart : ∀ i ∈ l, ∀ j ∈ l, src j ≠ dst i) :
    l.foldl (fun m i => m.bwrite (dst i) (m.bread (src i))) m = m.writes (l.map fun i => (dst i, m.bread (src i))) := by
  induction l generalizing m with
  | nil => rfl
  | cons i l ih =>
    have kept : ∀ j ∈ l, (m.bwrite (dst i) (m.bread (src i))).bread (src j) = m.bread (src j) := fun j inside =>
      bread_bwrite (apart i (by simp) j (by simp [inside]))
    rw [List.foldl_cons, ih fun j hj k hk => apart j (by simp [hj]) k (by simp [hk])]
    simp only [List.map_cons, Machine.writes, List.foldl_cons]
    congr 1
    apply List.map_congr_left
    intro j inside
    rw [kept j inside]

/-- The lists that the log can hold: they fit it, and name home sectors. -/
structure Transaction (g : Geometry) (lh : LogHeader) : Prop where
  room : lh.sector.length < g.size
  distinct : lh.sector.Nodup
  outside : ∀ s ∈ lh.sector, ¬ g.InLog s

theorem Transaction.room_at (fit : Transaction g lh) {p : Sector × Nat} (inside : p ∈ lh.sector.zipIdx) :
    p.2 + 1 < g.size := by
  have room := fit.room
  have index := List.snd_lt_of_mem_zipIdx inside
  omega

/-- No home sector of a transaction is a log block of it. -/
theorem Transaction.apart (fit : Transaction g lh) {p q : Sector × Nat} (home : p ∈ lh.sector.zipIdx)
    (copy : q ∈ lh.sector.zipIdx) : p.1 ≠ g.block q.2 := by
  intro same
  apply fit.outside p.1 (List.fst_mem_of_mem_zipIdx home)
  rw [same]
  exact g.block_inLog (fit.room_at copy)

/-- What copying to the log writes, where `v` are the cached contents. -/
def copies (g : Geometry) (lh : LogHeader) (v : Disk) : List (Sector × Block) :=
  lh.sector.zipIdx.map fun p => (g.block p.2, v p.1)

/-- What installing the log of disk `d` writes. -/
def installs (g : Geometry) (lh : LogHeader) (d : Disk) : List (Sector × Block) :=
  lh.sector.zipIdx.map fun p => (p.1, d (g.block p.2))

theorem writeLog_eq (fit : Transaction g m.lh) : m.writeLog g = m.writes (copies g m.lh m.bread) :=
  copy_loop m.lh.sector.zipIdx (fun p => g.block p.2) (fun p => p.1) fun _ copy _ home => fit.apart home copy

/-- The log blocks are not dirty, as `log_write` is never called on them. -/
def LogClean (g : Geometry) (m : Machine) : Prop := ∀ s, g.InLog s → m.dirty s = none

theorem installTrans_eq (fit : Transaction g m.lh) (clean : LogClean g m) :
    m.installTrans g = m.writes (installs g m.lh m.disk) := by
  have loop := copy_loop (m := m) m.lh.sector.zipIdx (fun p => p.1) (fun p => g.block p.2)
    fun _ home _ copy => (fit.apart home copy).symm
  rw [Machine.installTrans, loop, installs]
  congr 1
  apply List.map_congr_left
  intro p inside
  rw [bread_clean (clean _ (g.block_inLog (fit.room_at inside)))]

/-- The end of both procedures: install, then clear the header. -/
def finishWrites (g : Geometry) (lh : LogHeader) (d : Disk) : List (Sector × Block) :=
  installs g lh d ++ [(g.start, LogHeader.empty.store (d g.start))]

theorem start_not_installed (fit : Transaction g lh) : g.start ∉ (installs g lh d).map Prod.fst := by
  intro inside
  simp only [installs, List.map_map, List.mem_map, Function.comp_apply] at inside
  obtain ⟨p, home, same⟩ := inside
  apply fit.outside g.start (same ▸ List.fst_mem_of_mem_zipIdx home)
  exact g.start_inLog (by have := fit.room; omega)

theorem finish_eq (fit : Transaction g m.lh) (clean : LogClean g m) :
    Machine.writeHead g { m.installTrans g with lh := .empty } =
      { m.writes (finishWrites g m.lh m.disk) with lh := .empty } := by
  have size : 0 < g.size := by have := fit.room; omega
  have header : (m.installTrans g).bread g.start = m.disk g.start := by
    rw [installTrans_eq fit clean, bread_clean (writes_dirty (clean _ (g.start_inLog size))), writes_disk,
      applyWrites_untouched (start_not_installed fit)]
  rw [finishWrites, writes_append, ← installTrans_eq fit clean, ← header]
  rfl

/-- Recovery of a disk whose header can be loaded. -/
theorem recoverFromLog_eq (fit : Transaction g lh) (header : LogHeader.load (d g.start) = some lh) :
    (powerOn d).recoverFromLog g =
      some { Machine.writes { powerOn d with lh } (finishWrites g lh d) with lh := .empty } := by
  have loaded : (powerOn d).readHead g = some { powerOn d with lh } := by
    show (LogHeader.load (d g.start)).map _ = _
    rw [header]
    rfl
  have finish := finish_eq (m := { powerOn d with lh }) fit fun _ _ => rfl
  rw [Machine.recoverFromLog, loaded, Option.map_some, finish]
  rfl

/-! ## The phases of a disk -/

/-- The header is empty and the home sectors hold `v`. -/
structure Settled (g : Geometry) (v d : Disk) : Prop where
  cleared : headerCount (d g.start) = 0
  home : ∀ s, ¬ g.InLog s → d s = v s

/-- The header names the transaction, the log holds its blocks, and the other home sectors hold `v`. -/
structure Committed (g : Geometry) (lh : LogHeader) (v d : Disk) : Prop where
  header : LogHeader.load (d g.start) = some lh
  logged : ∀ p ∈ lh.sector.zipIdx, d (g.block p.2) = v p.1
  rest : ∀ s, ¬ g.InLog s → s ∉ lh.sector → d s = v s

theorem Transaction.empty (size : 0 < g.size) : Transaction g .empty := by
  constructor <;> simp [LogHeader.empty, size]

/-- A write to the header sector is no write to a home sector. -/
theorem ne_start_of_home (size : 0 < g.size) {s : Sector} (home : ¬ g.InLog s) : s ≠ g.start := by
  rintro rfl
  exact home (g.start_inLog size)

/-- Clearing the header settles a disk. -/
theorem settled_clear (size : 0 < g.size) (home : ∀ s, ¬ g.InLog s → d s = v s) :
    Settled g v (Function.update d g.start (LogHeader.empty.store b)) where
  cleared := by rw [Function.update_self]; exact headerCount_empty
  home s outside := by rw [Function.update_of_ne (ne_start_of_home size outside), home s outside]

/-- Recovery of a settled disk only writes an empty header again. -/
theorem Settled.cut (size : 0 < g.size) (settled : Settled g v d) (k : Nat) :
    Settled g v (applyWrites d ((finishWrites g .empty d).take k)) := by
  cases k with
  | zero => exact settled
  | succ k =>
    have whole : (finishWrites g .empty d).take (k + 1) = [(g.start, LogHeader.empty.store (d g.start))] :=
      List.take_of_length_le (by simp [finishWrites, installs, LogHeader.empty])
    rw [whole]
    exact settled_clear size settled.home

theorem mem_installs {s : Sector} : s ∈ (installs g lh d).map Prod.fst ↔ s ∈ lh.sector := by
  have names : (installs g lh d).map Prod.fst = lh.sector := by
    simp [installs, Function.comp_def]
  rw [names]

/-- Installing only some of the blocks leaves the transaction committed. -/
theorem Committed.install (fit : Transaction g lh) (committed : Committed g lh v d) (k : Nat) :
    Committed g lh v (applyWrites d ((installs g lh d).take k)) := by
  have size : 0 < g.size := by have := fit.room; omega
  have kept : ∀ s, s ∉ lh.sector → applyWrites d ((installs g lh d).take k) s = d s := by
    intro s off
    apply applyWrites_untouched
    intro inside
    apply off
    rw [← mem_installs (d := d) (g := g), ← List.take_append_drop k (installs g lh d), List.map_append]
    exact List.mem_append_left _ inside
  have log_kept : ∀ s, g.InLog s → applyWrites d ((installs g lh d).take k) s = d s := fun s inside =>
    kept s fun home => fit.outside s home inside
  constructor
  · rw [log_kept _ (g.start_inLog size)]
    exact committed.header
  · intro p inside
    rw [log_kept _ (g.block_inLog (fit.room_at inside))]
    exact committed.logged p inside
  · intro s outside off
    rw [kept s off]
    exact committed.rest s outside off

/-- Installing all of them and clearing the header settles the new contents. -/
theorem Committed.finish (fit : Transaction g lh) (committed : Committed g lh v d) :
    Settled g v (applyWrites d (finishWrites g lh d)) := by
  have size : 0 < g.size := by have := fit.room; omega
  rw [finishWrites, applyWrites_append]
  apply settled_clear size
  intro s outside
  by_cases named : s ∈ lh.sector
  · obtain ⟨i, bound, rfl⟩ := List.mem_iff_getElem.1 named
    have inside : (lh.sector[i], i) ∈ lh.sector.zipIdx := by simp [List.mk_mem_zipIdx_iff_getElem?, bound]
    have names : (installs g lh d).map Prod.fst = lh.sector := by simp [installs, Function.comp_def]
    have write : (lh.sector[i], d (g.block i)) ∈ installs g lh d := List.mem_map.2 ⟨_, inside, rfl⟩
    rw [applyWrites_of_mem (by rw [names]; exact fit.distinct) write]
    exact committed.logged _ inside
  · rw [applyWrites_untouched (by rwa [mem_installs])]
    exact committed.rest s outside named

/-- Wherever the end of a commit or of a recovery is cut, the transaction stays committed or is settled. -/
theorem Committed.cut (fit : Transaction g lh) (committed : Committed g lh v d) (k : Nat) :
    Committed g lh v (applyWrites d ((finishWrites g lh d).take k)) ∨
      Settled g v (applyWrites d ((finishWrites g lh d).take k)) := by
  by_cases early : k ≤ (installs g lh d).length
  · left
    rw [finishWrites, List.take_append_of_le_length early]
    exact committed.install fit k
  · right
    have whole : (finishWrites g lh d).length ≤ k := by simp [finishWrites]; omega
    rw [List.take_of_length_le whole]
    exact committed.finish fit

/-! ## A crash anywhere in a commit -/

/-- The machine that is about to commit `lh`, whose sectors are cached with the contents `cached`. -/
def pending (d : Disk) (lh : LogHeader) (cached : Sector → Block) : Machine :=
  ⟨d, fun s => if s ∈ lh.sector then some (cached s) else none, lh, []⟩

/-- What the commit is to make of the home sectors. -/
def intended (d : Disk) (lh : LogHeader) (cached : Sector → Block) : Disk := fun s =>
  if s ∈ lh.sector then cached s else d s

/-- The disk writes of a recovery started from disk `d`. -/
def recoveryWrites (g : Geometry) (d : Disk) : Option (List (Sector × Block)) :=
  ((powerOn d).recoverFromLog g).map Machine.written

variable {cached : Sector → Block}

theorem bread_pending (s : Sector) : (pending d lh cached).bread s = intended d lh cached s := by
  unfold Machine.bread intended pending
  by_cases named : s ∈ lh.sector <;> simp [named]

section
variable (fit : Transaction g lh)
include fit

/-- The writes of `commit`, in order. -/
theorem commit_written (some : 0 < lh.sector.length) :
    ((pending d lh cached).commit g).written = copies g lh (intended d lh cached) ++
      (g.start, lh.store (d g.start)) ::
        finishWrites g lh (Function.update (applyWrites d (copies g lh (intended d lh cached))) g.start
          (lh.store (d g.start))) := by
  have clean : LogClean g (pending d lh cached) := by
    intro s inside
    exact if_neg fun home => fit.outside s home inside
  have size : 0 < g.size := by have := fit.room; omega
  have cachedLog : (pending d lh cached).bread = intended d lh cached := funext bread_pending
  have logged := writeLog_eq (m := pending d lh cached) fit
  rw [cachedLog] at logged
  have start_kept : (Machine.writes (pending d lh cached) (copies g lh (intended d lh cached))).bread g.start =
      d g.start := by
    rw [bread_clean (writes_dirty (clean _ (g.start_inLog size))), writes_disk, applyWrites_untouched]
    · rfl
    · simp only [copies, List.map_map, List.mem_map, Function.comp_apply, not_exists, not_and]
      intro p inside
      exact g.block_ne_start (fit.room_at inside)
  have headed : Machine.writeHead g ((pending d lh cached).writeLog g) =
      (pending d lh cached).writes (copies g lh (intended d lh cached) ++ [(g.start, lh.store (d g.start))]) := by
    rw [logged, writes_append, ← start_kept]
    simp only [Machine.writeHead, writes_lh]
    rfl
  unfold Machine.commit
  rw [if_pos (show 0 < (pending d lh cached).lh.sector.length from some), headed]
  have finish := finish_eq (g := g)
    (m := (pending d lh cached).writes (copies g lh (intended d lh cached) ++ [(g.start, lh.store (d g.start))]))
    (by rw [writes_lh]; exact fit) fun s inside => writes_dirty (clean s inside)
  simp only [finish, writes_written, writes_lh, writes_disk, applyWrites_append]
  simp [pending]

theorem copies_in_log {w : Sector × Block} (member : w ∈ copies g lh v) :
    g.InLog w.1 ∧ w.1 ≠ g.start := by
  obtain ⟨p, inside, rfl⟩ := List.mem_map.1 member
  exact ⟨g.block_inLog (fit.room_at inside), g.block_ne_start (fit.room_at inside)⟩

theorem copies_distinct : ((copies g lh v).map Prod.fst).Nodup := by
  have room := fit.room
  have names : (copies g lh v).map Prod.fst = (List.range lh.sector.length).map g.block := by
    rw [List.range_eq_range', ← List.zipIdx_map_snd 0 lh.sector, copies, List.map_map, List.map_map]
    rfl
  rw [names]
  apply List.Nodup.map_on _ List.nodup_range
  intro i left j right same
  rw [List.mem_range] at left right
  have lefts := g.block_toNat (show i + 1 < g.size by omega)
  have rights := g.block_toNat (show j + 1 < g.size by omega)
  rw [same] at lefts
  omega

/-- While the blocks are being copied to the log the disk stays settled at its old contents. -/
theorem Settled.copying (settled : Settled g v d) (k : Nat) (w : Disk) :
    Settled g v (applyWrites d ((copies g lh w).take k)) := by
  have kept : ∀ s, ¬ g.InLog s ∨ s = g.start → applyWrites d ((copies g lh w).take k) s = d s := by
    intro s off
    apply applyWrites_untouched
    intro named
    obtain ⟨q, inside, rfl⟩ := List.mem_map.1 named
    obtain ⟨log, ne⟩ := copies_in_log fit (List.mem_of_mem_take inside)
    exact off.elim (fun outside => outside log) ne
  constructor
  · rw [kept _ (.inr rfl)]
    exact settled.cleared
  · intro s outside
    rw [kept s (.inl outside)]
    exact settled.home s outside

/-- The header write commits. -/
theorem committed_by_header :
    Committed g lh (intended d lh cached)
      (Function.update (applyWrites d (copies g lh (intended d lh cached))) g.start (lh.store b)) := by
  have size : 0 < g.size := by have := fit.room; omega
  constructor
  · rw [Function.update_self]
    exact LogHeader.load_store
  · intro p inside
    have write : (g.block p.2, intended d lh cached p.1) ∈ copies g lh (intended d lh cached) :=
      List.mem_map.2 ⟨p, inside, rfl⟩
    rw [Function.update_of_ne (g.block_ne_start (fit.room_at inside)), applyWrites_of_mem (copies_distinct fit) write]
  · intro s outside off
    rw [Function.update_of_ne (ne_start_of_home size outside), applyWrites_untouched]
    · exact (if_neg off).symm
    · intro named
      obtain ⟨q, inside, rfl⟩ := List.mem_map.1 named
      exact outside (copies_in_log fit inside).1

end

/-- The states a disk can be in after a crash of the commit or of a later recovery. `reached` says
whether the first header write is known to have happened. -/
def Recoverable (g : Geometry) (lh : LogHeader) (old new : Disk) (reached : Prop) (d : Disk) : Prop :=
  (¬ reached ∧ Settled g old d) ∨ Committed g lh new d ∨ Settled g new d

/-- Recovery completes on every such disk, and settles it. -/
theorem Recoverable.recovered (fit : Transaction g lh) {old new : Disk} {reached : Prop}
    (state : Recoverable g lh old new reached d) :
    ∃ m lh', (powerOn d).recoverFromLog g = some m ∧ m.written = finishWrites g lh' d ∧
      m.disk = applyWrites d m.written ∧ ((¬ reached ∧ Settled g old m.disk) ∨ Settled g new m.disk) ∧
      ∀ k, Recoverable g lh old new reached (applyWrites d (m.written.take k)) := by
  have size : 0 < g.size := by have := fit.room; omega
  have idle : ∀ v, Settled g v d → LogHeader.load (d g.start) = some .empty := fun v settled =>
    LogHeader.load_empty settled.cleared
  have whole : ∀ v, Settled g v d → Settled g v (applyWrites d (finishWrites g .empty d)) := fun v settled => by
    simpa using settled.cut size (finishWrites g .empty d).length
  rcases state with ⟨early, settled⟩ | committed | settled
  · refine ⟨_, .empty, recoverFromLog_eq (.empty size) (idle _ settled), by simp [powerOn], by simp [powerOn], ?_, ?_⟩
    · exact .inl ⟨early, by simpa [powerOn] using whole _ settled⟩
    · exact fun k => .inl ⟨early, by simpa [powerOn] using settled.cut size k⟩
  · refine ⟨_, lh, recoverFromLog_eq fit committed.header, by simp [powerOn], by simp [powerOn], ?_, ?_⟩
    · exact .inr (by simpa [powerOn] using committed.finish fit)
    · exact fun k => .inr (by simpa [powerOn] using committed.cut fit k)
  · refine ⟨_, .empty, recoverFromLog_eq (.empty size) (idle _ settled), by simp [powerOn], by simp [powerOn], ?_, ?_⟩
    · exact .inr (by simpa [powerOn] using whole _ settled)
    · exact fun k => .inr (.inr (by simpa [powerOn] using settled.cut size k))

/-- A crash after any number of disk writes of the commit leaves a recoverable disk. -/
theorem commit_cut (fit : Transaction g lh) (empty : headerCount (d g.start) = 0) (k : Nat) :
    Recoverable g lh d (intended d lh cached)
      (∃ b, (g.start, b) ∈ ((pending d lh cached).commit g).written.take k)
      (applyWrites d (((pending d lh cached).commit g).written.take k)) := by
  have old : Settled g d d := ⟨empty, fun _ _ => rfl⟩
  by_cases some : 0 < lh.sector.length
  · rw [commit_written fit some]
    by_cases early : k ≤ (copies g lh (intended d lh cached)).length
    · -- the cut falls before the header write
      left
      rw [List.take_append_of_le_length early]
      refine ⟨?_, old.copying fit k _⟩
      rintro ⟨b, member⟩
      exact (copies_in_log fit (List.mem_of_mem_take member)).2 rfl
    · -- the header write has happened, and a prefix of the rest
      right
      obtain ⟨j, later⟩ : ∃ j, k = (copies g lh (intended d lh cached)).length + (j + 1) :=
        ⟨k - (copies g lh (intended d lh cached)).length - 1, by omega⟩
      rw [later, List.take_append, applyWrites_append, List.take_of_length_le (by omega), Nat.add_sub_cancel_left,
        List.take_succ_cons, applyWrites_cons]
      exact (committed_by_header fit).cut fit j
  · left
    have nothing : ((pending d lh cached).commit g).written = [] := congrArg Machine.written (if_neg some)
    rw [nothing, List.take_nil]
    exact ⟨by simp, old⟩

/-- **Crash atomicity.** Stop the machine after any number of disk writes of a commit, then run
recovery, itself stopped and restarted any number of times. The recovery that completes leaves an empty
header and the home sectors all old or all new, and all new once the first header write was on the disk. -/
theorem commit_crash_atomic (fit : Transaction g lh) (empty : headerCount (d g.start) = 0) (k : Nat) {d' : Disk}
    (cut : Interrupted (recoveryWrites g) (applyWrites d (((pending d lh cached).commit g).written.take k)) d') :
    ∃ m, (powerOn d').recoverFromLog g = some m ∧ headerCount (m.disk g.start) = 0 ∧
      ((∀ s, ¬ g.InLog s → m.disk s = d s) ∨ ∀ s, ¬ g.InLog s → m.disk s = intended d lh cached s) ∧
      ((∃ b, (g.start, b) ∈ ((pending d lh cached).commit g).written.take k) →
        ∀ s, ¬ g.InLog s → m.disk s = intended d lh cached s) := by
  have state : Recoverable g lh d (intended d lh cached)
      (∃ b, (g.start, b) ∈ ((pending d lh cached).commit g).written.take k) d' := by
    apply cut.invariant (Recoverable g lh d (intended d lh cached) _) (commit_cut fit empty k)
    intro e ws j state done
    obtain ⟨m, _, recovered, _, _, _, kept⟩ := state.recovered fit
    rw [recoveryWrites, recovered] at done
    cases done
    exact kept j
  obtain ⟨m, _, recovered, _, _, settled, _⟩ := state.recovered fit
  refine ⟨m, recovered, ?_⟩
  rcases settled with ⟨early, settled⟩ | settled
  · exact ⟨settled.cleared, .inl settled.home, fun reached => absurd reached early⟩
  · exact ⟨settled.cleared, .inr settled.home, fun _ => settled.home⟩

/-- Two data blocks of ones are committed on a blank disk, and the machine stops right after the header write. -/
theorem commit_crash_atomic_mkfs :
    let blank : Disk := fun _ _ => 0
    let ones : Disk := fun _ _ => 1
    let lh : LogHeader := ⟨[29, 30], by decide⟩
    ∃ m, (powerOn (applyWrites blank (((pending blank lh ones).commit mkfsLog).written.take 3))).recoverFromLog
        mkfsLog = some m ∧ ∀ s, ¬ mkfsLog.InLog s → m.disk s = intended blank lh ones s := by
  intro blank ones lh
  have fit : Transaction mkfsLog lh := by
    refine ⟨by decide, by decide, ?_⟩
    intro s named inside
    rcases List.mem_cons.1 named with rfl | named
    · exact absurd inside.1 (by decide)
    · rw [List.mem_singleton.1 named] at inside
      exact absurd inside.1 (by decide)
  obtain ⟨m, recovered, _, _, new⟩ :=
    @commit_crash_atomic mkfsLog lh blank ones fit rfl 3 _ .refl
  refine ⟨m, recovered, new ⟨lh.store (blank mkfsLog.start), ?_⟩⟩
  rw [commit_written fit (by decide)]
  exact .tail _ (.tail _ (.head _))

end Xv6.Log
