/-
# Processes, the log and the buffer cache

File system calls of many processes at once, down to their buffers: the state of `Log.Group`, that
of `Bio`, and for each process the code it has still to run.  Each step is a step of the log, of the
buffer cache, or one of each where the code does both: `log_write` lists a block and pins its buffer
under `log.lock`.
-/

import Xv6.Bio.Code
import Xv6.Bio.Inv
import Xv6.Log.Isolation

namespace Xv6

open Lib

namespace Code

variable (log : Log.Region) {c : Option (Code Unit)}

/-- An iteration of `write_log`: copy a block from the cache to the log. -/
def writeLog (tail n : ℕ) : Code Unit := .bread (log.start + tail + 1) fun dst _ =>
  .bread n fun src data =>
  .update dst (fun _ => data) <|
  .bwrite dst <| .brelse src <| .brelse dst <| .commit <| .pure ()

/-- An iteration of `install_trans`: copy a block from the log to its home location. -/
def installTrans (tail n : ℕ) : Code Unit := .bread (log.start + tail + 1) fun lbuf data =>
  .bread n fun dbuf _ =>
  .update dbuf (fun _ => data) <|
  .bwrite dbuf <| .bunpin dbuf <| .brelse lbuf <| .brelse dbuf <| .pure ()

def writeHead (lh : List ℕ) (k : Code Unit) : Code Unit := .bread log.start fun buf _ =>
  .update buf (Log.putHead · lh) <|
  .bwrite buf <| .brelse buf k

def commitPiece (lh : List ℕ) : Log.CommitPc → Code Unit
  | .test | .clear | .done => .commit (.pure ())
  | .writeLog tail => match lh[tail]? with
    | some n => writeLog log tail n
    | none => .commit (.pure ())
  | .writeHead | .eraseHead => writeHead log lh (.commit (.pure ()))
  | .installTrans tail => match lh[tail]? with
    | some n => installTrans log tail n
    | none => .commit (.pure ())

end Code

/-- The log, the buffer cache, and what each process has still to run. -/
structure Sys (N : ℕ) where
  log : Log.Group N
  bio : Bio N
  code : Fin N → Option (Code Unit)
  panic : Bool

variable {N : ℕ}

namespace Sys

def boot (bio : Bio N) : Sys N where
  log := Log.Group.init N fun _ => 0
  bio := bio
  code _ := none
  panic := false

def goto (s : Sys N) (p : Fin N) (c : Option (Code Unit)) : Sys N :=
  { s with code := Function.update s.code p c }

def logStep (log : Log.Region) (s : Sys N) (a : Log.Action N) (p : Fin N) (c : Option (Code Unit)) :
    Option (Sys N) :=
  (Log.step log s.log a).map fun g => { s with log := g }.goto p c

def bioStep (s : Sys N) (a : BioAction N) (p : Fin N) (c : Option (Code Unit)) : Option (Sys N) :=
  (s.bio.step a).map fun bio => { s with bio := bio }.goto p c

def exec (log : Log.Region) (s : Sys N) (p : Fin N) : Code Unit → Option (Sys N)
  | .pure _ => match s.log.pc p with
    | .op _ => s.logStep log (.endOp p) p none
    | _ => some (s.goto p none)
  | .bread n _ => match s.bio.bget p ROOTDEV n with
    | some bio => some { s with bio := bio }
    | none => some { s with panic := true }
  | .update b f k => s.bioStep (.modify p b (f (s.bio.buf b).data)) p k
  | .logWrite b k =>
    if s.bio.lock b = some p then
      s.logStep log (.logWrite p (s.bio.buf b).blockno) p (some (.logWrite b k))
    else none
  | .bwrite b k => s.bioStep (.bwrite p b) p k
  | .brelse b k => s.bioStep (.brelse p b) p k
  | .bunpin b k => (s.bio.step (.bunpin p b)).bind fun bio =>
      { s with bio := bio }.logStep log (.commit p) p k
  | .commit k => s.logStep log (.commit p) p k
  | .panic => none

/-- The rest of `log_write`: list the block, and pin its buffer if it was not listed. -/
def append (log : Log.Region) (s : Sys N) (p : Fin N) (n : ℕ) : Option (Code Unit) → Option (Sys N)
  | some (.logWrite b k) =>
    { s with bio := if n ∈ s.log.lh then s.bio else s.bio.bpin b }.logStep log (.append p) p k
  | _ => none

def run (log : Log.Region) (s : Sys N) (p : Fin N) : Option (Sys N) :=
  match s.bio.pc p with
  | .acquiring .. => s.bioStep (.acquiresleep p) p (s.code p)
  | .reading b _ _ => match s.code p with
    | some (.bread _ k) => s.bioStep (.bread p) p (some (k b ((s.bio.bread p b).buf b).data))
    | _ => none
  | .releasing _ => s.bioStep (.unref p) p (s.code p)
  | .out => match s.log.pc p with
    | .begin => s.logStep log (.beginOp p) p (s.code p)
    | .sleeping => none
    | .append n _ => s.append log p n (s.code p)
    | .out | .op _ => (s.code p).bind (s.exec log p)
    | .commit c => match s.code p with
      | none => some (s.goto p (some (Code.commitPiece log s.log.lh c)))
      | some k => s.exec log p k

end Sys

inductive SysAction (N : ℕ)
  /-- Process `p` starts a call, in a transaction or not. -/
  | call (p : Fin N) (inOp : Bool) (c : Code Unit)
  | run (p : Fin N)

def Sys.step (log : Log.Region) (s : Sys N) : SysAction N → Option (Sys N)
  | .call p inOp c =>
    if s.panic = false ∧ s.log.panic = none ∧ s.log.pc p = .out ∧ s.code p = none ∧
    s.bio.pc p = .out then
      if inOp then s.logStep log (.call p) p (some c) else some (s.goto p (some c))
    else none
  | .run p => if s.panic = false ∧ s.log.panic = none then s.run log p else none

/-! ### The steps as a relation -/

def Log.Pc.inBegin : Log.Pc → Bool
  | .begin | .sleeping => true
  | _ => false

namespace Sys

inductive Step (log : Log.Region) (s : Sys N) : SysAction N → Sys N → Prop
  | callOp {p c g} : s.code p = none → s.bio.pc p = .out → s.log.pc p = .out →
    Log.step log s.log (.call p) = some g →
      Step log s (.call p true c) ({ s with log := g }.goto p (some c))
  | call {p c} : s.code p = none → s.bio.pc p = .out → s.log.pc p = .out →
      Step log s (.call p false c) (s.goto p (some c))
  | acquiresleep {p b dev n} : s.bio.pc p = .acquiring b dev n → s.bio.lock b = none →
      Step log s (.run p) { s with bio := s.bio.acquiresleep p b dev n }
  | read {p b dev n m k} : s.bio.pc p = .reading b dev n → s.code p = some (.bread m k) →
    Step log s (.run p)
        ({ s with bio := s.bio.bread p b }.goto p (some (k b ((s.bio.bread p b).buf b).data)))
  | unref {p b} : s.bio.pc p = .releasing b → Step log s (.run p) { s with bio := s.bio.unref p b }
  | begin {p g} : s.bio.pc p = .out → s.log.pc p = .begin →
    Log.step log s.log (.beginOp p) = some g → Step log s (.run p) { s with log := g }
  | append {p n used b k g} : s.bio.pc p = .out → s.log.pc p = .append n used →
      s.code p = some (.logWrite b k) → Log.step log s.log (.append p) = some g →
      Step log s (.run p)
        ({ s with log := g, bio := if n ∈ s.log.lh then s.bio else s.bio.bpin b }.goto p (some k))
  | piece {p c} : s.bio.pc p = .out → s.log.pc p = .commit c → s.code p = none →
      Step log s (.run p) (s.goto p (some (Code.commitPiece log s.log.lh c)))
  | endOp {p used g} : s.bio.pc p = .out → s.log.pc p = .op used → s.code p = some (.pure ()) →
      Log.step log s.log (.endOp p) = some g → Step log s (.run p) ({ s with log := g }.goto p none)
  | finish {p} : s.bio.pc p = .out → (s.log.pc p).inBegin = false → s.code p = some (.pure ()) →
    Step log s (.run p) (s.goto p none)
  | bget {p n k bio} : s.bio.pc p = .out → (s.log.pc p).inBegin = false →
    s.code p = some (.bread n k) →
      Bio.Step s.bio (.bget p ROOTDEV n) bio → Step log s (.run p) { s with bio := bio }
  | noBuffers {p n k} : s.bio.pc p = .out → (s.log.pc p).inBegin = false →
    s.code p = some (.bread n k) →
      s.bio.bget p ROOTDEV n = none → Step log s (.run p) { s with panic := true }
  | update {p b f k} : s.bio.pc p = .out → (s.log.pc p).inBegin = false →
      s.code p = some (.update b f k) → s.bio.lock b = some p →
      Step log s (.run p) ({ s with bio := s.bio.modify b (f (s.bio.buf b).data) }.goto p (some k))
  | logWrite {p b k g} : s.bio.pc p = .out → (s.log.pc p).inBegin = false →
      s.code p = some (.logWrite b k) → s.bio.lock b = some p →
      Log.step log s.log (.logWrite p (s.bio.buf b).blockno) = some g →
      Step log s (.run p) { s with log := g }
  | bwrite {p b k} : s.bio.pc p = .out → (s.log.pc p).inBegin = false →
      s.code p = some (.bwrite b k) → s.bio.lock b = some p →
      Step log s (.run p) ({ s with bio := s.bio.bwrite b }.goto p (some k))
  | brelse {p b k} : s.bio.pc p = .out → (s.log.pc p).inBegin = false →
      s.code p = some (.brelse b k) → s.bio.lock b = some p →
      Step log s (.run p) ({ s with bio := s.bio.brelse p b }.goto p (some k))
  | bunpin {p b k g} : s.bio.pc p = .out → (s.log.pc p).inBegin = false →
    s.code p = some (.bunpin b k) → Log.step log s.log (.commit p) = some g →
      Step log s (.run p) ({ s with log := g, bio := s.bio.bunpin b }.goto p (some k))
  | commit {p k g} : s.bio.pc p = .out → (s.log.pc p).inBegin = false →
    s.code p = some (.commit k) →
      Log.step log s.log (.commit p) = some g →
      Step log s (.run p) ({ s with log := g }.goto p (some k))

variable {log : Log.Region} {s s' : Sys N} {p : Fin N}

theorem goto_self (h : s.code p = c) : s.goto p c = s := by
  rw [goto, ← h, Function.update_eq_self]

theorem bioStep_eq (h : s.bioStep a p c = some s') :
    ∃ bio, s.bio.step a = some bio ∧ s' = { s with bio := bio }.goto p c := by
  obtain ⟨bio, hbio, rfl⟩ := Option.map_eq_some_iff.1 h
  exact ⟨bio, hbio, rfl⟩

theorem logStep_eq (h : s.logStep log a p c = some s') :
    ∃ g, Log.step log s.log a = some g ∧ s' = { s with log := g }.goto p c := by
  obtain ⟨g, hg, rfl⟩ := Option.map_eq_some_iff.1 h
  exact ⟨g, hg, rfl⟩

theorem step_of_exec {c : Code Unit} (hcircle : s.bio.Circle) (hpc : s.bio.pc p = .out)
    (hrun : (s.log.pc p).inBegin = false) (hcode : s.code p = some c)
    (h : s.exec log p c = some s') : Step log s (.run p) s' := by
  cases c with
  | pure a =>
    simp only [exec] at h
    split at h
    · rename_i used hop
      obtain ⟨g, hg, rfl⟩ := logStep_eq h
      exact .endOp hpc hop hcode hg
    · cases h
      exact .finish hpc hrun hcode
  | bread n k =>
    simp only [exec] at h
    split at h
    · rename_i bio hbio
      cases h
      have hstep : s.bio.step (.bget p ROOTDEV n) = some bio := by rwa [Bio.step, if_pos hpc]
      exact .bget hpc hrun hcode (Bio.step_cases hcircle hstep)
    · rename_i hbio
      cases h
      exact .noBuffers hpc hrun hcode hbio
  | update b f k =>
    obtain ⟨bio, hbio, rfl⟩ := bioStep_eq h
    rw [Bio.step] at hbio
    split_ifs at hbio with hl
    cases hbio
    exact .update hpc hrun hcode hl.2
  | logWrite b k =>
    simp only [exec] at h
    split_ifs at h with hl
    obtain ⟨g, hg, rfl⟩ := logStep_eq h
    rw [goto_self (s := { s with log := g }) hcode]
    exact .logWrite hpc hrun hcode hl hg
  | bwrite b k =>
    obtain ⟨bio, hbio, rfl⟩ := bioStep_eq h
    rw [Bio.step] at hbio
    split_ifs at hbio with hl
    cases hbio
    exact .bwrite hpc hrun hcode hl.2
  | brelse b k =>
    obtain ⟨bio, hbio, rfl⟩ := bioStep_eq h
    rw [Bio.step] at hbio
    split_ifs at hbio with hl
    cases hbio
    exact .brelse hpc hrun hcode hl.2
  | bunpin b k =>
    obtain ⟨bio, hbio, h⟩ := Option.bind_eq_some_iff.1 h
    obtain ⟨g, hg, rfl⟩ := logStep_eq h
    rw [Bio.step, if_pos hpc] at hbio
    cases hbio
    exact .bunpin hpc hrun hcode hg
  | commit k =>
    obtain ⟨g, hg, rfl⟩ := logStep_eq h
    exact .commit hpc hrun hcode hg
  | panic => cases h

theorem step_of_run (hcircle : s.bio.Circle) (h : s.run log p = some s') :
    Step log s (.run p) s' := by
  rw [run] at h
  split at h
  · rename_i b dev n hpc
    obtain ⟨bio, hbio, rfl⟩ := bioStep_eq h
    rw [goto_self (s := { s with bio := bio }) rfl]
    cases Bio.step_cases hcircle hbio with
    | acquiresleep hpc hlock => exact .acquiresleep hpc hlock
  · rename_i b dev n hpc
    split at h
    · rename_i m k hcode
      obtain ⟨bio, hbio, rfl⟩ := bioStep_eq h
      simp only [Bio.step, hpc] at hbio
      cases hbio
      exact .read hpc hcode
    · cases h
  · rename_i b hpc
    obtain ⟨bio, hbio, rfl⟩ := bioStep_eq h
    rw [goto_self (s := { s with bio := bio }) rfl]
    cases Bio.step_cases hcircle hbio with
    | unref hpc => exact .unref hpc
  rename_i hpc
  split at h
  · rename_i hbegin
    obtain ⟨g, hg, rfl⟩ := logStep_eq h
    rw [goto_self (s := { s with log := g }) rfl]
    exact .begin hpc hbegin hg
  · cases h
  · rename_i n used happend
    unfold append at h
    split at h
    · rename_i b k hcode
      obtain ⟨g, hg, rfl⟩ := logStep_eq h
      exact .append hpc happend hcode hg
    · cases h
  · rename_i hout
    obtain ⟨c, hcode, hc⟩ := Option.bind_eq_some_iff.1 h
    exact step_of_exec hcircle hpc (by rw [hout]; rfl) hcode hc
  · rename_i used hop
    obtain ⟨c, hcode, hc⟩ := Option.bind_eq_some_iff.1 h
    exact step_of_exec hcircle hpc (by rw [hop]; rfl) hcode hc
  · rename_i c hcommit
    split at h
    · rename_i hcode
      cases h
      exact .piece hpc hcommit hcode
    · rename_i k hcode
      exact step_of_exec hcircle hpc (by rw [hcommit]; rfl) hcode h

theorem step_cases (hcircle : s.bio.Circle) (h : s.step log a = some s') : Step log s a s' := by
  cases a with
  | call p inOp c =>
    rw [step] at h
    split_ifs at h with hp hop
    · subst hop
      obtain ⟨g, hg, rfl⟩ := logStep_eq h
      exact .callOp hp.2.2.2.1 hp.2.2.2.2 hp.2.2.1 hg
    · cases h
      have hin : inOp = false := by simpa using hop
      subst hin
      exact .call hp.2.2.2.1 hp.2.2.2.2 hp.2.2.1
  | run p =>
    rw [step] at h
    split_ifs at h
    exact step_of_run hcircle h

theorem Step.bio (h : Step log s a s') : s'.bio = s.bio ∨ ∃ a', Bio.Step s.bio a' s'.bio := by
  cases h with
  | callOp | call | begin | piece | endOp | finish | noBuffers | logWrite | commit => exact .inl rfl
  | acquiresleep hpc hlock => exact .inr ⟨_, .acquiresleep hpc hlock⟩
  | read hpc hcode => exact .inr ⟨_, .bread hpc⟩
  | unref hpc => exact .inr ⟨_, .unref hpc⟩
  | @append p n used b k g hpc hn hcode hlog =>
    by_cases hmem : n ∈ s.log.lh
    · exact .inl (if_pos hmem)
    · refine .inr ⟨.bpin p b, ?_⟩
      simp only [goto, if_neg hmem]
      exact .bpin hpc
  | bget hpc hrun hcode hstep => exact .inr ⟨_, hstep⟩
  | update hpc hrun hcode hl => exact .inr ⟨_, .modify hpc hl⟩
  | bwrite hpc hrun hcode hl => exact .inr ⟨_, .bwrite hpc hl⟩
  | brelse hpc hrun hcode hl => exact .inr ⟨_, .brelse hpc hl⟩
  | bunpin hpc hrun hcode hlog => exact .inr ⟨_, .bunpin hpc⟩

end Sys
end Xv6
