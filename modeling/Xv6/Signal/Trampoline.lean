import Xv6.Signal.Transparency
import Xv6.Signal.Delivery

/-!
# Does the return code survive the handler?

`handleSignals` copies the code of `implicit_sigret` to the user stack, 20 bytes below the
stack pointer, and enters the handler with the stack pointer 8 bytes below: so the
code, 8 bytes long, lies below the stack pointer of the handler, and only one word
is between them. A handler that needs more of the stack overwrites the code it
returns to.
-/

namespace Xv6.Signal

open Xv6.Lib

/-! ## Reading back what was stored -/

theorem load32_eq {m : Mem} {a : Addr} {w : BitVec 32} (b0 : m a = w.extractLsb' 0 8) (b1 : m (a + 1) = w.extractLsb' 8 8)
    (b2 : m (a + 2) = w.extractLsb' 16 8) (b3 : m (a + 3) = w.extractLsb' 24 8) : load32 m a = w := by
  rw [load32, b0, b1, b2, b3]
  ext i lt
  simp only [BitVec.getElem_append, BitVec.getElem_extractLsb']
  split_ifs <;> grind

/-- `copyout` stores all of the return code: every byte of it is for a page with `PTE_U`. -/
def Proc.CodeStored (p : Proc) : Prop :=
  ∀ k < implicitSigret.length, p.pteU ((p.tf.esp - 20 + BitVec.ofNat 32 k).extractLsb' 12 20) = true

instance (p : Proc) : Decidable p.CodeStored :=
  inferInstanceAs (Decidable (∀ k < _, _))

/-- Offsets from the beginning of the return code at which a delivery stores. -/
def stackOffsets : List Nat := [0, 1, 2, 3, 4, 5, 6, 7, 16, 17, 18, 19, 12, 13, 14, 15]

section
variable {q : Proc} {m : Mem} {esp a : BitVec 32} {signum : Nat}

theorem copyout_code (stored : q.CodeStored) : q.copyout (q.tf.esp - 20) implicitSigret = storesAt (q.tf.esp - 20) implicitSigret := by
  refine List.takeWhile_eq_self_iff.2 fun w member => ?_
  obtain ⟨⟨b, k⟩, place, rfl⟩ := List.mem_map.1 member
  exact stored k (List.snd_lt_of_mem_zipIdx place)

theorem stackStores_addresses (stored : q.CodeStored) :
    (q.stackStores signum).map Prod.fst = stackOffsets.map fun k => q.tf.esp - 20 + BitVec.ofNat 32 k := by
  have arg : ∀ k : BitVec 32, q.tf.esp - 4 + k = q.tf.esp - 20 + (16 + k) := fun k => by bv_omega
  have ret : ∀ k : BitVec 32, q.tf.esp - 8 + k = q.tf.esp - 20 + (12 + k) := fun k => by bv_omega
  rw [Proc.stackStores, copyout_code stored]
  simp only [storesAt, bytes32, implicitSigret, stackOffsets, List.map_append, List.zipIdx_cons, List.zipIdx_nil,
    List.map_cons, List.map_nil, arg, ret]
  rfl

theorem stackStores_nodup (stored : q.CodeStored) : ((q.stackStores signum).map Prod.fst).Nodup := by
  rw [stackStores_addresses stored]
  refine List.Nodup.map_on ?_ (by decide)
  intro j memberJ k memberK same
  have small : ∀ i ∈ stackOffsets, i < 2 ^ 32 := by decide
  have offsets : BitVec.ofNat 32 j = BitVec.ofNat 32 k := by bv_omega
  have := congrArg BitVec.toNat offsets
  rwa [BitVec.toNat_ofNat, BitVec.toNat_ofNat, Nat.mod_eq_of_lt (small j memberJ), Nat.mod_eq_of_lt (small k memberK)] at this

/-- What a delivery leaves in memory: the code, and its address where the handler returns to. -/
structure Prepared (esp : BitVec 32) (m : Mem) : Prop where
  code : ∀ k (lt : k < implicitSigret.length), m (esp - 20 + BitVec.ofNat 32 k) = implicitSigret[k]
  address : load32 m (esp - 8) = esp - 20

theorem applyWrites_prepared (stored : q.CodeStored) : Prepared q.tf.esp (applyWrites m (q.stackStores signum)) := by
  have reads : ∀ a b, (a, b) ∈ q.stackStores signum → applyWrites m (q.stackStores signum) a = b :=
    fun _ _ member => applyWrites_of_mem (stackStores_nodup stored) member
  constructor
  · intro k lt
    refine reads _ _ (List.mem_append_left _ (List.mem_append_left _ ?_))
    rw [copyout_code stored]
    exact List.mem_map.2 ⟨(implicitSigret[k], k), List.mk_mem_zipIdx_iff_getElem?.2 (List.getElem?_eq_getElem lt), rfl⟩
  · have byte : ∀ k (lt : k < (bytes32 (q.tf.esp - 20)).length),
        applyWrites m (q.stackStores signum) (q.tf.esp - 8 + BitVec.ofNat 32 k) = (bytes32 (q.tf.esp - 20))[k] := fun k lt =>
      reads _ _ (List.mem_append_right _ (List.mem_map.2
        ⟨((bytes32 (q.tf.esp - 20))[k], k), List.mk_mem_zipIdx_iff_getElem?.2 (List.getElem?_eq_getElem lt), rfl⟩))
    have four : (bytes32 (q.tf.esp - 20)).length = 4 := rfl
    refine load32_eq ?_ (byte 1 (by omega)) (byte 2 (by omega)) (byte 3 (by omega))
    have first := byte 0 (by omega)
    rwa [BitVec.ofNat_eq_ofNat, BitVec.add_zero] at first

/-- What `handleSignals` leaves for the handler. -/
theorem handleSignals_prepared (kalloc : Bool) (delivers : q.Delivers) (stored : q.CodeStored) :
    (q.handleSignals kalloc).tf.esp = q.tf.esp - 8 ∧ Prepared q.tf.esp (q.handleSignals kalloc).mem := by
  -- the frame and the pages are those of `q` when the stack is written
  have prepared (p : Proc) (tf : p.tf = q.tf) (pteU : p.pteU = q.pteU) (m : Mem) (signum : Nat) :
      Prepared q.tf.esp (applyWrites m (p.stackStores signum)) := by
    rw [← tf]
    refine applyWrites_prepared ?_
    rwa [Proc.CodeStored, tf, pteU]
  unfold Proc.handleSignals Proc.saveFrame
  rw [if_pos delivers]
  cases q.backuptf <;> cases kalloc <;> exact ⟨rfl, prepared _ rfl rfl _ _⟩

end

/-! ## Handlers -/

/-- The system call that the code at `eip` makes, if it is code that pushes `eax`, loads a number and traps. -/
def callMade (m : Mem) (eip : Addr) : Option (BitVec 32) :=
  if m eip = 0x50 ∧ m (eip + 1) = 0xb8 ∧ m (eip + 6) = 0xcd ∧ m (eip + 7) = 0x40 then some (load32 m (eip + 2)) else none

/-- A handler that obeys the calling convention, entered with the stack pointer `entry`: it stores only below, at most
`depth` bytes deep. -/
def Obeys (depth : Nat) (entry : Addr) (before after : Mem) : Prop :=
  ∀ a, after a ≠ before a → a.toNat < entry.toNat ∧ entry.toNat ≤ a.toNat + depth

/-- The return path is as it was, and so `ret` leads to the `sigreturn` system call. -/
structure Survives (entry : Addr) (before after : Mem) : Prop where
  address : load32 after entry = load32 before entry
  code : ∀ k < implicitSigret.length,
    after (load32 before entry + BitVec.ofNat 32 k) = before (load32 before entry + BitVec.ofNat 32 k)
  call : callMade after (load32 after entry) = some SYS_sigreturn

theorem Prepared.callMade {esp : BitVec 32} {m : Mem} (prepared : Prepared esp m) : callMade m (esp - 20) = some SYS_sigreturn := by
  have byte : ∀ k (lt : k < implicitSigret.length), m (esp - 20 + BitVec.ofNat 32 k) = implicitSigret[k] := prepared.code
  have first := byte 0 (by decide)
  rw [BitVec.ofNat_eq_ofNat, BitVec.add_zero] at first
  have at_ : ∀ j : BitVec 32, esp - 20 + 2 + j = esp - 20 + (2 + j) := fun j => by rw [BitVec.add_assoc]
  have number : load32 m (esp - 20 + 2) = SYS_sigreturn := by
    refine load32_eq (byte 2 (by decide)) ?_ ?_ ?_
    · rw [at_]
      exact byte 3 (by decide)
    · rw [at_]
      exact byte 4 (by decide)
    · rw [at_]
      exact byte 5 (by decide)
  rw [Signal.callMade, if_pos ⟨first, byte 1 (by decide), byte 6 (by decide), byte 7 (by decide)⟩, number]

/-- The return code, when all of it was stored, survives every handler that stores at most `depth` bytes deep exactly if
`depth` is at most 4: one word is all that lies between the stack pointer of the handler and the code. -/
theorem trampoline_survives_iff (q : Proc) (kalloc : Bool) (delivers : q.Delivers) (mapped : q.StackMapped)
    (stored : q.CodeStored) (depth : Nat) :
    (∀ after, Obeys depth (q.handleSignals kalloc).tf.esp (q.handleSignals kalloc).mem after →
      Survives (q.handleSignals kalloc).tf.esp (q.handleSignals kalloc).mem after) ↔ depth ≤ 4 := by
  obtain ⟨entry, prepared⟩ := handleSignals_prepared kalloc delivers stored
  have low : 20 ≤ q.tf.esp.toNat := mapped.1
  rw [entry]
  generalize (q.handleSignals kalloc).mem = before at prepared
  generalize q.tf.esp = esp at prepared low
  have above : (esp - 8).toNat = esp.toNat - 8 := by bv_omega
  constructor
  · intro survives
    by_contra deep
    -- a handler that stores into the last byte of the code
    have obeys : Obeys depth (esp - 8) before (Function.update before (esp - 13) 0) := by
      intro a changed
      have there : a = esp - 13 := by
        by_contra other
        exact changed (Function.update_of_ne other ..)
      have place : (esp - 13).toNat = esp.toNat - 13 := by bv_omega
      rw [there]
      omega
    have same := (survives _ obeys).code 7 (by decide)
    rw [prepared.address, prepared.code 7 (by decide), show esp - 20 + BitVec.ofNat 32 7 = esp - 13 by bv_omega,
      Function.update_self] at same
    exact absurd same (by decide)
  · intro shallow after obeys
    have kept : ∀ a, a.toNat < esp.toNat - 12 ∨ esp.toNat - 8 ≤ a.toNat → after a = before a := by
      intro a place
      by_contra changed
      have := obeys a changed
      omega
    have code : ∀ k < implicitSigret.length, after (esp - 20 + BitVec.ofNat 32 k) = before (esp - 20 + BitVec.ofNat 32 k) := by
      intro k lt
      have small : k < 8 := lt
      refine kept _ (.inl ?_)
      have : (esp - 20 + BitVec.ofNat 32 k).toNat = esp.toNat - 20 + k := by bv_omega
      omega
    have prepared' : Prepared esp after := by
      refine ⟨fun k lt => (code k lt).trans (prepared.code k lt), ?_⟩
      have word : load32 after (esp - 8) = load32 before (esp - 8) := by
        unfold load32
        rw [kept (esp - 8) (.inr (by bv_omega)), kept (esp - 8 + 1) (.inr (by bv_omega)),
          kept (esp - 8 + 2) (.inr (by bv_omega)), kept (esp - 8 + 3) (.inr (by bv_omega))]
      rw [word, prepared.address]
    refine ⟨by rw [prepared'.address, prepared.address], ?_, by rw [prepared'.address]; exact prepared'.callMade⟩
    rw [prepared.address]
    exact code

/-- A handler that saves one register returns. -/
theorem trampoline_survives_push : (interrupted 0 ()).Delivers ∧ (interrupted 0 ()).StackMapped ∧ (interrupted 0 ()).CodeStored ∧
    ∀ after, Obeys 4 ((interrupted 0 ()).handleSignals true).tf.esp ((interrupted 0 ()).handleSignals true).mem after →
      Survives ((interrupted 0 ()).handleSignals true).tf.esp ((interrupted 0 ()).handleSignals true).mem after := by
  refine ⟨by decide, by decide, by decide, ?_⟩
  exact (trampoline_survives_iff (interrupted 0 ()) true (by decide) (by decide) (by decide) 4).2 (le_refl 4)

/-- The memory after a handler that saved `ebp` and cleared a local variable. -/
def clobbered : Mem :=
  applyWrites ((interrupted 0 ()).handleSignals true).mem (storesAt (4096 - 16) (bytes32 0 ++ bytes32 0xbf8))

/-- A handler with a local variable returns to code that is no longer there. -/
theorem trampoline_clobbered : ((interrupted 0 ()).handleSignals true).tf.esp = 4096 - 8 ∧
    Obeys 8 (4096 - 8) ((interrupted 0 ()).handleSignals true).mem clobbered ∧
    load32 clobbered (4096 - 8) = 4096 - 20 ∧ callMade clobbered (4096 - 20) = none := by
  refine ⟨rfl, fun a changed => ?_, by decide +kernel, by decide +kernel⟩
  by_contra outside
  refine changed (applyWrites_untouched fun member => outside ?_)
  have listed : a ∈ (storesAt (4096 - 16) (bytes32 0 ++ bytes32 0xbf8)).map Prod.fst := member
  simp [storesAt, bytes32] at listed
  rcases listed with rfl | rfl | rfl | rfl | rfl | rfl | rfl | rfl <;> decide

end Xv6.Signal
