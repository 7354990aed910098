import Utu.Stackish.Parser
import Utu.Stackish.Token
import Utu.Lib.Outcome

/-!
# Runs of the scanner

How the scanner crosses the bytes of one token. Inside a token it only moves;
a token that ends where the next begins runs its action first and then behaves
as if it stood between tokens at the same byte. The token is handed to its
handler as the slice from the mark, which is the text the lexer reads.
-/

namespace Utu.Stackish
open LinkedForest
set_option autoImplicit false

variable {D : Type} (lib : DoubleLib D) (buf : Bytes)

theorem scan_cons (ps : Parser D) (hcs : 1 ≤ ps.cs ∧ ps.cs ≤ 14) (c : UInt8) (rest : Bytes)
    (p : Nat) : scan lib buf (c :: rest) p ps = (do
      let (out, ps') ← runActions lib buf p (machine ps.cs c).2 { ps with cs := (machine ps.cs c).1 }
      if out then pure (p, ps')
      else if (machine ps.cs c).1 = errorState then pure (p, ps')
      else scan lib buf rest (p + 1) ps') := by
  rw [scan, transition_eq hcs]

/-- A byte inside a token. -/
theorem scan_quiet (ps : Parser D) (target : Nat) (hcs : 1 ≤ ps.cs ∧ ps.cs ≤ 14) {c : UInt8}
    (hMachine : machine ps.cs c = (target, [])) (hTarget : target ≠ 0) (rest : Bytes) (p : Nat) :
    scan lib buf (c :: rest) p ps = scan lib buf rest (p + 1) { ps with cs := target } := by
  rw [scan_cons lib buf ps hcs, hMachine]
  simp [runActions, errorState, hTarget]

/-- The first byte of a token, where the mark is set. -/
theorem scan_mark (ps : Parser D) (target : Nat) (hcs : 1 ≤ ps.cs ∧ ps.cs ≤ 14) {c : UInt8}
    (hMachine : machine ps.cs c = (target, [.mark])) (hTarget : target ≠ 0) (rest : Bytes)
    (p : Nat) :
    scan lib buf (c :: rest) p ps =
      scan lib buf rest (p + 1) { ps with cs := target, mark := p } := by
  rw [scan_cons lib buf ps hcs, hMachine]
  simp [runActions, runAction, errorState, hTarget]

/-- A byte that no token allows. -/
theorem scan_error (ps : Parser D) (hcs : 1 ≤ ps.cs ∧ ps.cs ≤ 14) {c : UInt8}
    (hMachine : machine ps.cs c = (0, [])) (rest : Bytes) (p : Nat) :
    scan lib buf (c :: rest) p ps = .ok (p, { ps with cs := 0 }) := by
  rw [scan_cons lib buf ps hcs, hMachine]
  simp only [runActions, errorState, pure_bind, Bool.false_eq_true, if_false, if_true]
  rfl

/-- A run of bytes that keep the scanner in its state. -/
theorem scan_run (ps : Parser D) (hcs : 1 ≤ ps.cs ∧ ps.cs ≤ 14) (run rest : Bytes) (p : Nat)
    (hRun : ∀ c ∈ run, machine ps.cs c = (ps.cs, [])) :
    scan lib buf (run ++ rest) p ps = scan lib buf rest (p + run.length) ps := by
  induction run generalizing p with
  | nil => simp
  | cons c run ih =>
    rw [List.cons_append, scan_quiet lib buf ps ps.cs hcs (hRun c List.mem_cons_self) (by omega)]
    rw [ih (p + 1) (fun b hb => hRun b (List.mem_cons_of_mem _ hb)), List.length_cons]
    congr 1
    omega

/-- A byte that begins a run. -/
theorem scan_quiet_run (ps : Parser D) (target : Nat) (c : UInt8) (run rest : Bytes) (p : Nat)
    (hcs : 1 ≤ ps.cs ∧ ps.cs ≤ 14) (hTarget : 1 ≤ target ∧ target ≤ 14)
    (hMachine : machine ps.cs c = (target, []))
    (hRun : ∀ b ∈ run, machine target b = (target, [])) :
    scan lib buf (c :: (run ++ rest)) p ps =
      scan lib buf rest (p + (c :: run).length) { ps with cs := target } := by
  rw [scan_quiet lib buf ps target hcs hMachine (by omega),
    scan_run lib buf { ps with cs := target } hTarget run rest (p + 1) hRun, List.length_cons,
    Nat.add_assoc, Nat.add_comm 1]

theorem scan_mark_run (ps : Parser D) (target : Nat) (c : UInt8) (run rest : Bytes) (p : Nat)
    (hcs : 1 ≤ ps.cs ∧ ps.cs ≤ 14) (hTarget : 1 ≤ target ∧ target ≤ 14)
    (hMachine : machine ps.cs c = (target, [.mark]))
    (hRun : ∀ b ∈ run, machine target b = (target, [])) :
    scan lib buf (c :: (run ++ rest)) p ps =
      scan lib buf rest (p + (c :: run).length) { ps with cs := target, mark := p } := by
  rw [scan_mark lib buf ps target hcs hMachine (by omega),
    scan_run lib buf { ps with cs := target, mark := p } hTarget run rest (p + 1) hRun,
    List.length_cons, Nat.add_assoc, Nat.add_comm 1]

theorem push_cs {p : Nat} {type : NodeType} {ps ps' : Parser D} {ok : Bool}
    (h : push lib buf p type ps = .ok (ok, ps')) : ps'.cs = ps.cs := by
  obtain ⟨r, -, hr⟩ := Outcome.bind_eq_ok_iff.mp h
  cases hr
  rfl

theorem runAction_cs {p : Nat} {ps ps' : Parser D} {act : Action} {out : Bool}
    (h : runAction lib buf p ps act = .ok (out, ps')) : ps'.cs = ps.cs := by
  cases act
  all_goals simp only [runAction] at h
  case mark | start => cases h; rfl
  case more =>
    split at h
    · cases h; rfl
    · cases h
  case word | group | attrib =>
    obtain ⟨r, -, hr⟩ := Outcome.bind_eq_ok_iff.mp h
    cases hr
    rfl
  case number | float | string =>
    obtain ⟨r, hPush, hr⟩ := Outcome.bind_eq_ok_iff.mp h
    cases hr
    exact push_cs lib buf hPush
  case blob =>
    obtain ⟨⟨ok, ps₁⟩, hPush, hr⟩ := Outcome.bind_eq_ok_iff.mp h
    cases hr
    have hcs := push_cs lib buf hPush
    cases ok <;> simpa using hcs

section Flush
variable {lib buf} {ps ps' : Parser D} {c : UInt8} {act : Action}

/-- The action of a token that ends at `c` leaves the loop there. -/
theorem scan_flush_out (hcs : 1 ≤ ps.cs ∧ ps.cs ≤ 14)
    (hMachine : machine ps.cs c = ((idle c).1, act :: (idle c).2)) {p : Nat}
    (hAct : runAction lib buf p { ps with cs := (idle c).1 } act = .ok (true, ps')) (rest : Bytes) :
    scan lib buf (c :: rest) p ps = .ok (p, ps') := by
  rw [scan_cons lib buf ps hcs, hMachine]
  simp only [runActions]
  rw [Outcome.bind_of_ok hAct]
  rfl

theorem scan_flush_fault (hcs : 1 ≤ ps.cs ∧ ps.cs ≤ 14)
    (hMachine : machine ps.cs c = ((idle c).1, act :: (idle c).2)) {p : Nat} {e : Fault}
    (hAct : runAction lib buf p { ps with cs := (idle c).1 } act = .error e) (rest : Bytes) :
    scan lib buf (c :: rest) p ps = .error e := by
  rw [scan_cons lib buf ps hcs, hMachine]
  simp only [runActions]
  rw [Outcome.bind_of_error hAct]
  rfl

/-- Otherwise the scanner goes on as if it stood between two tokens at `c`. -/
theorem scan_flush_next (hcs : 1 ≤ ps.cs ∧ ps.cs ≤ 14)
    (hMachine : machine ps.cs c = ((idle c).1, act :: (idle c).2)) {p : Nat}
    (hAct : runAction lib buf p { ps with cs := (idle c).1 } act = .ok (false, ps'))
    (rest : Bytes) :
    scan lib buf (c :: rest) p ps = scan lib buf (c :: rest) p { ps' with cs := 10 } := by
  have hcs' : ps'.cs = (idle c).1 := runAction_cs lib buf hAct
  have hSame : { ps' with cs := (idle c).1 } = ps' := by rw [← hcs']
  rw [scan_cons lib buf ps hcs, scan_cons lib buf { ps' with cs := 10 } (by simp), hMachine]
  simp only [runActions, machine, hSame]
  rw [Outcome.bind_of_ok hAct]
  rfl

end Flush

end Utu.Stackish
