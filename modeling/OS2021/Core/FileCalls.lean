import OS2021.Core.OpenFiles

/-! Runs of the calls that open, share and close files.

Every call keeps `Tracked`; `open_files_counted` is what follows for whole runs. -/
namespace OS2021.Core
open Fs Lib Function
open Common (strncpy)

variable {env : Env} {k k' k1 : Kernel} {p q np : ProcId} {f : Fin nfile} {fd : Fin nofile} {ip : Ptr}
  {rest : Nat → Int} {n : Int} {sb : SuperBlock} {u : Unit}

/-! ### `sys_openat` -/

/-- The number of the directory in which `sys_openat` does not find a name, to which it
then loses a reference. -/
def missed (env : Env) (k : Kernel) (p : ProcId) : Option Nat :=
  match (openArgs (k.proc p)).run k.mem with
  | .ok (some (path, omode)) _ =>
    match (openWalk env (k.proc p) path omode).run k.vol with
    | .ok r s => s.numberOf r.1.lost
    | .error _ _ => none
  | _ => none

/-- What `sys_openat` does when it returns `n`. -/
inductive Opens (env : Env) (p : ProcId) (k : Kernel) : Int → Kernel → Prop
  | failed {k' : Kernel} (hidle : Idle k k') (hvol : Steady (weight (missed env k p)) k.vol k'.vol) :
    Opens env p k (-1) k'
  | opened {f : Fin nfile} {fd : Fin nofile} {file : File} {k' : Kernel} (hmissed : missed env k p = none)
    (hfree : (k.ftable f).ref = 0) (hslot : k.slot (p, fd) = none) (href : file.ref = 1) (htype : file.type = .inode)
    (hftable : k'.ftable = update k.ftable f file) (hprocs : k'.procs = (k.setSlot p fd (some f)).procs)
    (hvol : Borrowed [file.ip] k.vol k'.vol) : Opens env p k (fd : Nat) k'

theorem listed_nil {s : Volume} : s.listed [] = 0 := rfl

theorem sysOpenat_ok (hk : Tracked rest k) (h : (sysOpenat env p).run k = .ok n k') : Opens env p k n k' := by
  rw [sysOpenat, bind_ok (get_run k)] at h
  obtain ⟨args, k1, hargs, hrest⟩ := bind_eq_ok h
  clear h
  obtain ⟨mem, hrun, rfl⟩ := onMem_ok hargs
  cases args with
  | none =>
    have hmissed : missed env k p = none := by rw [missed, hrun]
    cases hrest
    refine .failed (.of_eq rfl rfl) ?_
    rw [hmissed]
    exact hk.inodes.counted.steady
  | some args =>
    obtain ⟨path, omode⟩ := args
    dsimp only at hrest
    rw [beginOp, bind_ok (modify_run _ _)] at hrest
    obtain ⟨r, k2, hopen, hrest⟩ := bind_eq_ok hrest
    obtain ⟨e, name', s1, hwalk, hlost, hb, hftable, hprocs⟩ := openInode_ok (k := {k with mem, outstanding := _})
      hk.inodes.counted (fun ip hip => hk.inodes.live (.inr p) ip hip) hopen
    have hmissed : missed env k p = s1.numberOf e.lost := by
      have hwalk' : (openWalk env (k.proc p) path omode).run k.vol = .ok (e, name') s1 := hwalk
      rw [missed, hrun]
      dsimp only
      rw [hwalk']
    have hftable : k2.ftable = k.ftable := hftable
    have hprocs : k2.procs = k.procs := hprocs
    have hb : Borrowed (r.toList ++ e.lost.toList) k.vol k2.vol := hb
    cases r with
    | none =>
      cases hrest
      refine .failed (.of_eq hftable hprocs) ?_
      show Steady _ k.vol k2.vol
      have hweight : weight (missed env k p) = k2.vol.listed e.lost.toList := by
        rw [hmissed, weight_numberOf]
        rcases hlost with hlost | ⟨-, hvol⟩
        · rw [hlost]
          rfl
        · rw [← hvol]
          cases e.lost with
          | none => rfl
          | some d => exact (listed_cons.trans (add_zero _)).symm
      rw [hweight]
      exact hb.toSteady
    | some ip =>
      have hlost : e.lost = none := by
        rcases hlost with hlost | ⟨hr, -⟩
        · exact hlost
        · cases hr
      have hnone : missed env k p = none := by
        rw [hmissed, hlost]
        rfl
      rw [hlost] at hb
      have htype : ∀ f, (k2.ftable f).ref = 0 → (k2.ftable f).type = .none := by
        intro f hf
        rw [hftable] at hf ⊢
        rw [hk.type, if_neg (by omega)]
      rcases openFile_ok hk.inodes.counted hb htype hrest with ⟨rfl, hf, hp, hvol⟩ |
        ⟨f, fd, file, rfl, hf, hslot, ⟨href, htype, rfl⟩, hftable', hprocs', hvol⟩
      · refine .failed (.of_eq (hf.trans hftable) (hp.trans hprocs)) ?_
        rw [hnone]
        exact hvol.toSteady
      · rw [hftable] at hf hftable'
        have hslot' : k.slot (p, fd) = none := by
          rw [Kernel.slot, Kernel.proc, hprocs] at hslot
          exact hslot
        rw [Kernel.setSlot, Kernel.setProc, hprocs] at hprocs'
        exact .opened hnone hf hslot' href htype hftable' hprocs' hvol

/-- A new entry has one descriptor and one reference to its inode. -/
theorem Tracked.opens (h : Tracked rest k) (hp : ¬ k.Gone p) (ho : Opens env p k n k') :
    Tracked (rest + weight (missed env k p)) k' := by
  cases ho with
  | failed hidle hvol => exact hidle.tracked h hvol
  | @opened f fd file _ hmissed hfree hslot href htype hftable hprocs hvol =>
    have hfree' : k.owner (.inl f) = none := by
      rw [Kernel.owner, hfree]
      rfl
    rw [hmissed, weight, add_zero]
    refine h.repoint file hftable hprocs ?_ (by rw [href, htype]; rfl) (fun _ => hp) ?_
    · rw [href, hfree, hslot]
      exact (sub_zero _).symm
    · rw [if_pos (by omega)]
      refine (h.inodes.steady hvol.toSteady).gain hfree' (hvol.live _ List.mem_cons_self) ?_
      rw [listed_cons, listed_nil, add_zero]
      rfl

/-! ### `sys_dup` and `sys_close` -/

theorem argfd_some {q : Proc} {i : Nat} (h : argfd q i = some (fd, f)) : q.ofile fd = some f := by
  unfold argfd at h
  obtain ⟨a, -, h⟩ := Option.bind_eq_some_iff.mp h
  split at h
  case isTrue =>
    obtain ⟨g, hg, he⟩ := Option.map_eq_some_iff.mp h
    cases he
    exact hg
  case isFalse => cases h

theorem filedup_ok {g : Fin nfile} (h : (filedup f).run k = .ok g k') :
    g = f ∧ 1 ≤ (k.ftable f).ref ∧ k' = k.setFile f fun g => {g with ref := g.ref + 1} := by
  rw [filedup, bind_ok (get_run k)] at h
  split at h
  case isTrue => cases h
  case isFalse hpos =>
    cases h
    exact ⟨rfl, by omega, rfl⟩

theorem sysDup_ok (h : (sysDup p).run k = .ok n k') : n = -1 ∧ k' = k ∨
    ∃ (f : Fin nfile) (fd : Fin nofile), n = (fd : Nat) ∧ k.slot (p, fd) = none ∧ 1 ≤ (k.ftable f).ref ∧
      k' = (k.setSlot p fd (some f)).setFile f fun g => {g with ref := g.ref + 1} := by
  rw [sysDup, bind_ok (get_run k)] at h
  cases hargs : argfd (k.proc p) 0 with
  | none =>
    rw [hargs] at h
    cases h
    exact Or.inl ⟨rfl, rfl⟩
  | some args =>
    rw [hargs] at h
    obtain ⟨o, k1, hfd, hrest⟩ := bind_eq_ok h
    rcases fdalloc_ok hfd with ⟨rfl, rfl⟩ | ⟨fd, rfl, hslot, rfl⟩
    · cases hrest
      exact Or.inl ⟨rfl, rfl⟩
    · obtain ⟨g, k2, hdup, hret⟩ := bind_eq_ok hrest
      obtain ⟨-, hpos, rfl⟩ := filedup_ok hdup
      cases hret
      exact Or.inr ⟨args.2, fd, rfl, hslot, hpos, rfl⟩

theorem sysClose_ok (h : (sysClose sb p).run k = .ok n k') : n = -1 ∧ k' = k ∨
    n = 0 ∧ ∃ fd f, k.slot (p, fd) = some f ∧ Closed sb f (k.setSlot p fd none) k' := by
  rw [sysClose, bind_ok (get_run k)] at h
  cases hargs : argfd (k.proc p) 0 with
  | none =>
    rw [hargs] at h
    cases h
    exact Or.inl ⟨rfl, rfl⟩
  | some args =>
    rw [hargs] at h
    dsimp only at h
    rw [bind_ok (modify_run _ _)] at h
    obtain ⟨_, k1, hclose, hret⟩ := bind_eq_ok h
    cases hret
    exact Or.inr ⟨rfl, args.1, args.2, argfd_some hargs, fileclose_ok hclose⟩

/-- `fileclose` does not touch the pointer in an entry. -/
theorem Closed.same_ip (h : Closed sb f k k') (e : Fin nfile) : (k'.ftable e).ip = (k.ftable e).ip := by
  have hfile : ∀ g : File → File, (∀ a, (g a).ip = a.ip) → ((k.setFile f g).ftable e).ip = (k.ftable e).ip := by
    intro g hg
    by_cases he : e = f
    · rw [he, setFile_self, hg]
    · rw [setFile_of_ne he]
  cases h with
  | shared | unset => exact hfile _ fun _ => rfl
  | last => exact hfile (fun g => {g with ref := 0, type := .none}) fun _ => rfl

theorem setFile_ref_ip {m : Int} (e : Fin nfile) :
    ((k.setFile f fun g => {g with ref := g.ref + m}).ftable e).ip = (k.ftable e).ip := by
  by_cases he : e = f
  · rw [he, setFile_self]
  · rw [setFile_of_ne he]

/-! ### Current directories -/

/-- The current directory of a process changes. -/
theorem Tracked.chdir (h : Tracked rest k) {o : Option Ptr} {vol : Volume} (hp : o ≠ none → ¬ k.Gone p)
    (howned : Owned rest vol (update k.owner (.inr p) o)) :
    Tracked rest ({k with vol}.setProc p fun q => {q with cwd := o}) := by
  have hkeep : ∀ q, (({k with vol}.setProc p fun q => {q with cwd := o}).proc q).ofile = (k.proc q).ofile ∧
      (({k with vol}.setProc p fun q => {q with cwd := o}).proc q).state = (k.proc q).state := by
    intro q
    by_cases hq : q = p
    · rw [hq, proc_setProc]
      exact ⟨rfl, rfl⟩
    · rw [proc_setProc_ne hq]
      exact ⟨rfl, rfl⟩
  have hslots : ({k with vol}.setProc p fun q => {q with cwd := o}).slot = k.slot := by
    funext σ
    exact congrFun (hkeep σ.1).1 σ.2
  refine h.of_slot rfl hslots (fun q hq => ?gone) (fun c => setProc_pid.ge) ?inodes
  case gone =>
    rw [Kernel.Gone, (hkeep q).2] at hq
    refine ⟨(h.gone q hq).1, ?_⟩
    by_cases he : q = p
    · rw [he, proc_setProc]
      by_contra hne
      exact hp hne (he ▸ hq)
    · rw [proc_setProc_ne he]
      exact (h.gone q hq).2
  case inodes =>
    have howner : ({k with vol}.setProc p fun q => {q with cwd := o}).owner = update k.owner (.inr p) o := by
      funext x
      cases x with
      | inl e =>
        rw [update_of_ne Sum.inl_ne_inr]
        rfl
      | inr q =>
        rw [Kernel.owner]
        by_cases he : q = p
        · rw [he, proc_setProc, update_self]
        · rw [proc_setProc_ne he, update_of_ne fun hx => he (Sum.inr.inj hx)]
          rfl
    rw [howner]
    exact howned

/-! ### `fork` -/

theorem allocPcb_ok {this : Nat} {o : Option ProcId} (h : (allocPcb env this).run k = .ok o k') :
    k'.vol = k.vol ∧ Idle k k' ∧ ∀ np, o = some np → (k.proc np).state = .unused ∧
      (k'.proc np).pid = (k'.procs this).pid := by
  cases h
  refine ⟨rfl, ?_⟩
  rcases allocPcbSimple_cases env.tree this k.procs with ⟨hnone, hsame⟩ | ⟨p, hp, hunused, hothers, hself, hpid⟩
  · refine ⟨.of_eq rfl hsame, fun np hnp => ?_⟩
    rw [hnone] at hnp
    cases hnp
  · have hproc : ∀ q, ((allocPcbSimple env.tree this k.procs).2.proc q).ofile = (k.proc q).ofile ∧
        ((allocPcbSimple env.tree this k.procs).2.proc q).cwd = (k.proc q).cwd ∧
        ((allocPcbSimple env.tree this k.procs).2.proc q).state = (k.proc q).state := by
      intro q
      by_cases hq : q = p
      · rw [hq, hself]
        exact ⟨rfl, rfl, rfl⟩
      · rw [hothers q hq]
        exact ⟨rfl, rfl, rfl⟩
    refine ⟨⟨rfl, fun q => ⟨(hproc q).1, (hproc q).2.1⟩, fun q hq => ?_, hpid⟩, fun np hnp => ?_⟩
    · have hstate := (hproc q).2.2
      unfold Kernel.Gone Kernel.proc at hq ⊢
      rw [hstate] at hq
      exact hq
    · rw [hp] at hnp
      cases hnp
      refine ⟨hunused, ?_⟩
      show ((allocPcbSimple env.tree this k.procs).2.proc p).pid = _
      rw [hself]

theorem allocProc_ok {this : Nat} {o : Option ProcId} (h : (Kernel.allocProc env this).run k = .ok o k') :
    k'.vol = k.vol ∧ Idle k k' ∧ ∀ np, o = some np → k.Gone np ∧ (k'.proc np).state = .embryo ∧
      (k'.proc np).pid = (k'.procs this).pid := by
  rw [Kernel.allocProc] at h
  obtain ⟨o1, k1, hpcb, hrest⟩ := bind_eq_ok h
  clear h
  obtain ⟨hvol, hidle, hnew⟩ := allocPcb_ok hpcb
  cases o1 with
  | none =>
    cases hrest
    exact ⟨hvol, hidle, nofun⟩
  | some p =>
    obtain ⟨hunused, hpid⟩ := hnew p rfl
    dsimp only at hrest
    rw [bind_ok (modify_run _ _)] at hrest
    obtain ⟨stp, k2, halloc, hrest⟩ := bind_eq_ok hrest
    obtain ⟨mem, -, rfl⟩ := onMem_ok halloc
    have hgone : k.Gone p := Or.inl hunused
    have hembryo := hidle.revive hgone (g := fun q => {q with state := .embryo}) rfl rfl
    have hmem : Idle k {k1.setProc p fun q => {q with state := .embryo} with mem} := hembryo.trans (.of_eq rfl rfl)
    cases stp with
    | none =>
      cases hrest
      exact ⟨hvol, hmem.revive hgone rfl rfl, nofun⟩
    | some stp =>
      cases hrest
      refine ⟨hvol, hmem.revive hgone rfl rfl, fun np hnp => ?_⟩
      cases hnp
      have hproc : ({k1.setProc p fun q => {q with state := .embryo} with mem} : Kernel).proc p =
          {k1.proc p with state := .embryo} := proc_setProc
      have hcounter : (({k1.setProc p fun q => {q with state := .embryo} with mem} : Kernel).procs this).pid =
          (k1.procs this).pid := counter_setProc
      rw [proc_setProc, hproc, counter_setProc, hcounter]
      exact ⟨hgone, rfl, hpid⟩

/-- What one round of the loop over descriptors does. -/
theorem dupSlot_ok (h : (dupSlot p np fd).run k = .ok u k') : k' = k ∨
    ∃ f, 1 ≤ (k.ftable f).ref ∧ k' = (k.setSlot np fd (some f)).setFile f fun g => {g with ref := g.ref + 1} := by
  rw [dupSlot, bind_ok (get_run k)] at h
  cases hslot : (k.proc p).ofile fd with
  | none =>
    rw [hslot] at h
    cases h
    exact Or.inl rfl
  | some f =>
    rw [hslot] at h
    obtain ⟨g, k1, hdup, hret⟩ := bind_eq_ok h
    obtain ⟨rfl, hpos, rfl⟩ := filedup_ok hdup
    cases hret
    exact Or.inr ⟨g, hpos, rfl⟩

/-- The loop over descriptors in `fork`, at descriptor `i`. -/
structure Forking (rest : Nat → Int) (np : ProcId) (k0 : Kernel) (i : Nat) (k : Kernel) : Prop where
  tracked : Tracked rest k
  fresh : ∀ fd : Fin nofile, i ≤ fd → k.slot (np, fd) = none
  proc : (k.proc np).state = .embryo ∧ (k.proc np).cwd = none ∧ (k.proc np).pid = (k0.proc np).pid
  ip : ∀ e, (k.ftable e).ip = (k0.ftable e).ip

theorem Forking.dupSlot {k0 : Kernel} {i : Nat} (hi : i < (List.finRange nofile).length) :
    Triple (Forking rest np k0 i) (dupSlot p np (List.finRange nofile)[i]) (fun _ => Forking rest np k0 (i + 1))
      fun _ _ => True := by
  refine Triple.of_ok fun k _ k' hk hrun => ?_
  rw [List.getElem_finRange] at hrun
  rcases dupSlot_ok hrun with rfl | ⟨f, hpos, rfl⟩
  · exact ⟨hk.tracked, fun fd hfd => hk.fresh fd (by omega), hk.proc, hk.ip⟩
  · obtain ⟨hstate, hcwd, hpid⟩ := hk.proc
    have halive : ¬ k.Gone np := by
      rw [Kernel.Gone, hstate]
      decide
    refine ⟨hk.tracked.point (hk.fresh _ (le_refl _)) hpos halive, fun fd hfd => ?_, ?_, fun e => ?_⟩
    · show (k.setSlot np _ (some f)).slot (np, fd) = none
      rw [slot_setSlot, update_of_ne]
      · exact hk.fresh fd (by omega)
      · intro he
        have := congrArg (fun σ : ProcId × Fin nofile => (σ.2 : Nat)) he
        simp at this
        omega
    · exact ⟨setSlot_proc.2.1.trans hstate, setSlot_proc.1.trans hcwd, setSlot_proc.2.2.trans hpid⟩
    · rw [setFile_ref_ip]
      exact hk.ip e

theorem shareCwd_ok (hk : Tracked rest k) (hnp : (k.proc np).cwd = none) (halive : ¬ k.Gone np)
    (h : (shareCwd p np).run k = .ok u k') : Tracked rest k' ∧ k'.ftable = k.ftable ∧
      (k'.proc np).state = (k.proc np).state ∧ (k'.proc np).pid = (k.proc np).pid := by
  rw [shareCwd, bind_ok (get_run k)] at h
  cases hcwd : (k.proc p).cwd with
  | none =>
    rw [hcwd] at h
    cases h
  | some cwd =>
    rw [hcwd] at h
    obtain ⟨o, k1, hshare, hret⟩ := bind_eq_ok h
    obtain ⟨vol, hrun, rfl⟩ := onVol_ok hshare
    cases hret
    have hlive := hk.inodes.live (.inr p) cwd hcwd
    obtain ⟨rfl, hsteady⟩ := inodeShare_steady hk.inodes.counted hlive hrun
    obtain ⟨hlive', hno⟩ := hsteady.kept o hlive
    refine ⟨hk.chdir (fun _ => halive) ?_, rfl, ?_, ?_⟩
    · exact (hk.inodes.steady hsteady).gain hnp hlive' (by rw [hno])
    · rw [proc_setProc]
      rfl
    · rw [proc_setProc]
      rfl

/-- What `fork` does: nothing to what is counted, or a new process with references of its own. -/
theorem fork_ok (hk : Tracked rest k) (h : (fork env p).run k = .ok n k') :
    Tracked rest k' ∧ (∀ e, (k'.ftable e).ip = (k.ftable e).ip) ∧ (n = -1 → Idle k k' ∧ k'.vol = k.vol) := by
  rw [fork] at h
  obtain ⟨o, k1, halloc, hrest⟩ := bind_eq_ok h
  clear h
  obtain ⟨hvol, hidle, hnew⟩ := allocProc_ok halloc
  cases o with
  | none =>
    cases hrest
    exact ⟨hidle.same hk hvol, fun e => by rw [hidle.ftable], fun _ => ⟨hidle, hvol⟩⟩
  | some np =>
    obtain ⟨hgone, hembryo, hpid⟩ := hnew np rfl
    dsimp only at hrest
    rw [bind_ok (get_run _)] at hrest
    obtain ⟨pgdir, k2, hcopy, hrest⟩ := bind_eq_ok hrest
    obtain ⟨mem, -, rfl⟩ := onMem_ok hcopy
    have hidle : Idle k {k1 with mem} := hidle.trans (.of_eq rfl rfl)
    cases pgdir with
    | none =>
      dsimp only at hrest
      rw [bind_ok (get_run _)] at hrest
      obtain ⟨_, k3, hfree, hrest⟩ := bind_eq_ok hrest
      obtain ⟨mem', -, rfl⟩ := onMem_ok hfree
      cases hrest
      have hlast : Idle k {k1 with mem := mem'} := hidle.trans (.of_eq rfl rfl)
      have hlast := hlast.revive hgone (g := fun q => {q with pgdir := 0, kstack := 0, state := .unused}) rfl rfl
      exact ⟨hlast.same hk hvol, fun e => congrArg File.ip (congrFun hlast.ftable e), fun _ => ⟨hlast, hvol⟩⟩
    | some pgdir =>
      dsimp only at hrest
      rw [bind_ok (get_run _), bind_ok (modify_run _ _)] at hrest
      obtain ⟨_, k4, hloop, hrest⟩ := bind_eq_ok hrest
      have hidle := hidle.revive hgone (g := Proc.forked (({k1 with mem} : Kernel).proc p) pgdir p) rfl rfl
      generalize hk3 : ({k1 with mem} : Kernel).setProc np _ = k3 at hidle hloop
      have hproc : k3.proc np = (({k1 with mem} : Kernel).proc p).forked pgdir p (k1.proc np) := by
        rw [← hk3]
        exact proc_setProc
      have hstart : Forking rest np k3 0 k3 := by
        have hvol3 : k3.vol = k.vol := by
          rw [← hk3]
          exact hvol
        refine ⟨hidle.same hk hvol3, fun fd _ => ?_, ⟨?_, (hidle.proc np).2.trans (hk.gone np hgone).2, rfl⟩,
          fun _ => rfl⟩
        · rw [hidle.slot]
          exact (hk.gone np hgone).1 fd
        · rw [hproc]
          exact hembryo
      obtain ⟨htracked, -, ⟨hstate, hcwd, hpid'⟩, hip⟩ :=
        (Triple.forM _ _ _ _ fun i hi => Forking.dupSlot hi) k3 hstart |>.of_ok hloop
      have halive : ¬ k4.Gone np := by
        rw [Kernel.Gone, hstate]
        decide
      rw [bind_ok (modify_run _ _)] at hrest
      obtain ⟨_, k6, hshare, hrest⟩ := bind_eq_ok hrest
      have hnamed : Idle k4
          (k4.setProc np fun q => {q with name := strncpy (({k1 with mem} : Kernel).proc p).name 16}) := by
        refine .setProc rfl rfl fun hg => ?_
        rw [Kernel.Gone, proc_setProc] at hg
        exact hg
      have hnp := (hnamed.proc np).2.trans hcwd
      have halive5 := mt (hnamed.gone np) halive
      obtain ⟨htracked6, hftable, hstate6, hpid6⟩ := shareCwd_ok (hnamed.same htracked rfl) hnp halive5 hshare
      rw [proc_setProc] at hpid6
      cases hrest
      refine ⟨?_, fun e => ?_, fun hn => ?_⟩
      · refine Idle.same (.setProc rfl rfl fun hg => ?_) htracked6 rfl
        rw [Kernel.Gone, proc_setProc] at hg
        rcases hg with hg | hg <;> cases hg
      · show (k6.ftable e).ip = _
        rw [hftable, ← hidle.ftable]
        exact hip e
      · -- the counter of the container is not negative
        have hnonneg := (hidle.same hk (by rw [← hk3]; exact hvol)).pid p.1
        have hcounter : (k3.procs p.1).pid = (k1.procs p.1).pid := by
          rw [← hk3]
          exact counter_setProc
        have hresult : ((k6.setProc np fun q => {q with state := .runnable}).proc np).pid = (k1.procs p.1).pid := by
          rw [proc_setProc]
          exact hpid6.trans (hpid'.trans ((congrArg Proc.pid hproc).trans hpid))
        rw [hresult, ← hcounter] at hn
        omega

/-! ### `exit` and `wait` -/

theorem Closed.setSlot (h : Closed sb f k k') : Closed sb f (k.setSlot p fd none) (k'.setSlot p fd none) := by
  cases h with
  | shared h => exact .shared h
  | unset h htype => exact .unset h htype
  | last h htype hput => exact .last (k := k.setSlot p fd none) h htype hput

theorem closeSlot_ok (h : (closeSlot sb p fd).run k = .ok u k') :
    k.slot (p, fd) = none ∧ k' = k ∨ ∃ f, k.slot (p, fd) = some f ∧ Closed sb f (k.setSlot p fd none) k' := by
  rw [closeSlot, bind_ok (get_run k)] at h
  cases hslot : (k.proc p).ofile fd with
  | none =>
    rw [hslot] at h
    cases h
    exact Or.inl ⟨hslot, rfl⟩
  | some f =>
    rw [hslot] at h
    obtain ⟨_, k1, hclose, hret⟩ := bind_eq_ok h
    cases hret
    exact Or.inr ⟨f, hslot, (fileclose_ok hclose).setSlot⟩

theorem Closed.procs (h : Closed sb f k k') : k'.procs = k.procs := by
  cases h with
  | shared => rfl
  | unset => rfl
  | last => rfl

/-- The loop over descriptors in `exit`, at descriptor `i`. -/
structure Exiting (rest : Nat → Int) (p : ProcId) (k0 : Kernel) (i : Nat) (k : Kernel) : Prop where
  tracked : Tracked rest k
  closed : ∀ fd : Fin nofile, (fd : Nat) < i → k.slot (p, fd) = none
  ip : ∀ e, (k.ftable e).ip = (k0.ftable e).ip

theorem Exiting.closeSlot {k0 : Kernel} {i : Nat} (hrest : ∀ i, 0 ≤ rest i) (hi : i < (List.finRange nofile).length) :
    Triple (Exiting rest p k0 i) (closeSlot sb p (List.finRange nofile)[i]) (fun _ => Exiting rest p k0 (i + 1))
      fun _ _ => True := by
  refine Triple.of_ok fun k _ k' hk hrun => ?_
  rw [List.getElem_finRange] at hrun
  have hsame : ∀ fd : Fin nofile, (fd : Nat) < i + 1 → fd ≠ ⟨i, by simpa using hi⟩ → (fd : Nat) < i := by
    intro fd hfd hne
    have : (fd : Nat) ≠ i := fun he => hne (Fin.ext he)
    omega
  rcases closeSlot_ok hrun with ⟨hnone, rfl⟩ | ⟨f, hslot, hc⟩
  · refine ⟨hk.tracked, fun fd hfd => ?_, hk.ip⟩
    by_cases he : fd = ⟨i, by simpa using hi⟩
    · rw [he]
      exact hnone
    · exact hk.closed fd (hsame fd hfd he)
  · refine ⟨hk.tracked.clear hrest hslot hc, fun fd hfd => ?_, fun e => (hc.same_ip e).trans (hk.ip e)⟩
    rw [Kernel.slot, Kernel.proc, hc.procs]
    show (k.setSlot p _ none).slot (p, fd) = none
    rw [slot_setSlot, update_apply]
    split
    case isTrue => rfl
    case isFalse hne => exact hk.closed fd (hsame fd hfd fun he => hne (by rw [he]; rfl))

theorem putCwd_ok (hk : Tracked rest k) (hrest : ∀ i, 0 ≤ rest i) (h : (putCwd sb p).run k = .ok u k') :
    Tracked rest k' ∧ k'.ftable = k.ftable ∧ (k'.proc p).cwd = none ∧
      ∀ fd, k'.slot (p, fd) = k.slot (p, fd) := by
  rw [putCwd, beginOp, bind_ok (modify_run _ _), bind_ok (get_run _)] at h
  cases hcwd : (k.proc p).cwd with
  | none =>
    have hcwd' : (({k with outstanding := k.outstanding + 1} : Kernel).proc p).cwd = none := hcwd
    rw [hcwd'] at h
    cases h
  | some cwd =>
    have hcwd' : (({k with outstanding := k.outstanding + 1} : Kernel).proc p).cwd = some cwd := hcwd
    rw [hcwd'] at h
    obtain ⟨_, k1, hput, hrest'⟩ := bind_eq_ok h
    obtain ⟨vol, hrun, rfl⟩ := onVol_ok hput
    cases hrest'
    have hidle : Idle k {k with outstanding := k.outstanding + 1 - 1} := .of_eq rfl rfl
    have hk' := hidle.same hk rfl
    refine ⟨hk'.chdir (fun h => absurd rfl h) (hk'.inodes.lose hrest hcwd hrun), rfl, ?_, fun fd => ?_⟩
    · rw [proc_setProc]
    · rw [Kernel.slot, proc_setProc]
      rfl

theorem reparent_proc (initproc : ProcId) (s : Containers) :
    ∃ parent, (reparent initproc p s).proc q = {s.proc q with parent} := by
  rw [Containers.proc, reparent]
  by_cases hc : q.1 = p.1
  · rw [hc, update_self, Containers.proc, hc]
    dsimp only
    split
    · exact ⟨_, rfl⟩
    · exact ⟨_, rfl⟩
  · rw [update_of_ne hc]
    exact ⟨_, rfl⟩

/-- A process that has given everything back can be buried. -/
theorem Tracked.bury (h : Tracked rest k) (initproc : ProcId) (hslots : ∀ fd, k.slot (p, fd) = none)
    (hcwd : (k.proc p).cwd = none) : Tracked rest {k with procs := bury initproc p k.procs} := by
  have hproc : ∀ q, ((Core.bury initproc p k.procs).proc q).ofile = (k.proc q).ofile ∧
      ((Core.bury initproc p k.procs).proc q).cwd = (k.proc q).cwd ∧
      (q ≠ p → ((Core.bury initproc p k.procs).proc q).state = (k.proc q).state) := by
    intro q
    obtain ⟨parent, hq⟩ := reparent_proc (p := p) (q := q) initproc k.procs
    rw [Core.bury]
    by_cases he : q = p
    · rw [he] at hq ⊢
      rw [proc_setProc_self, hq]
      exact ⟨rfl, rfl, fun hne => absurd rfl hne⟩
    · rw [proc_setProc_of_ne he, hq]
      exact ⟨rfl, rfl, fun _ => rfl⟩
  have hslot : ({k with procs := Core.bury initproc p k.procs} : Kernel).slot = k.slot := by
    funext σ
    exact congrFun (hproc σ.1).1 σ.2
  refine h.of_slot rfl hslot (fun q hq => ?gone) (fun c => ?pid) ?inodes
  case gone =>
    by_cases he : q = p
    · rw [he]
      exact ⟨hslots, (hproc p).2.1.trans hcwd⟩
    · have hstate := (hproc q).2.2 he
      have hq' : k.Gone q := by
        unfold Kernel.Gone Kernel.proc at hq ⊢
        rw [hstate] at hq
        exact hq
      exact ⟨(h.gone q hq').1, (hproc q).2.1.trans (h.gone q hq').2⟩
  case pid =>
    show _ ≤ (((reparent initproc p k.procs).setProc p _) c).pid
    rw [setProc_pid, reparent_pmap.2]
  case inodes =>
    have howner : ({k with procs := Core.bury initproc p k.procs} : Kernel).owner = k.owner := by
      funext x
      cases x with
      | inl e => rfl
      | inr q => exact (hproc q).2.1
    rw [howner]
    exact h.inodes

theorem exit_ok (hk : Tracked rest k) (hrest : ∀ i, 0 ≤ rest i) (h : (exit env p).run k = .ok u k') :
    Tracked rest k' ∧ ∀ e, (k'.ftable e).ip = (k.ftable e).ip := by
  rw [exit] at h
  split at h
  case isTrue => cases h
  case isFalse =>
    obtain ⟨_, k1, hloop, hend⟩ := bind_eq_ok h
    obtain ⟨htracked, hclosed, hip⟩ := (Triple.forM _ _ _ _ fun i hi => Exiting.closeSlot hrest hi) k
      (⟨hk, fun _ hlt => absurd hlt (Nat.not_lt_zero _), fun _ => rfl⟩ : Exiting rest p k 0 k) |>.of_ok hloop
    obtain ⟨_, k2, hput, hbury⟩ := bind_eq_ok hend
    obtain ⟨htracked2, hftable, hcwd, hslots⟩ := putCwd_ok htracked hrest hput
    cases hbury
    refine ⟨htracked2.bury env.initproc (fun fd => ?_) hcwd, fun e => ?_⟩
    · rw [hslots]
      exact hclosed fd (by simp)
    · show (k2.ftable e).ip = _
      rw [hftable]
      exact hip e

theorem waitRound_ok {o : Option Int} (h : (waitRound env p).run k = .ok o k') : Idle k k' ∧ k'.vol = k.vol := by
  rw [waitRound, bind_ok (get_run k)] at h
  cases hchild : deadChild p k.procs with
  | some i =>
    have htest := List.find?_some hchild
    have hzombie : (k.proc (p.1, i)).state = .zombie := (of_decide_eq_true htest).2
    rw [hchild] at h
    dsimp only at h
    rw [bind_ok (set_run _ _)] at h
    obtain ⟨_, k1, hvm, h⟩ := bind_eq_ok h
    obtain ⟨mem, -, rfl⟩ := onMem_ok hvm
    obtain ⟨_, k2, hfree, h⟩ := bind_eq_ok h
    obtain ⟨mem', -, rfl⟩ := onMem_ok hfree
    cases h
    have hreap : reap p k.procs = (k.setProc (p.1, i) fun q =>
        {q with killed := false, state := .unused, pid := 0, parent := none}).procs := by
      rw [reap, hchild]
      rfl
    have hidle : Idle k (k.setProc (p.1, i) fun q =>
        {q with killed := false, state := .unused, pid := 0, parent := none}) :=
      .setProc rfl rfl fun _ => Or.inr hzombie
    exact ⟨hidle.trans (.of_eq rfl hreap), rfl⟩
  | none =>
    rw [hchild] at h
    dsimp only at h
    split at h
    case isTrue =>
      cases h
      exact ⟨.of_eq rfl rfl, rfl⟩
    case isFalse =>
      cases h
      refine ⟨.setProc rfl rfl fun hg => ?_, rfl⟩
      rw [Kernel.Gone, proc_setProc] at hg
      rcases hg with hg | hg <;> cases hg

/-! ### Runs -/

inductive FileCall where
  /-- The process computes: its registers and its memory change. -/
  | user (p : ProcId) (tf : Trapframe) (mem : Memory)
  | openat (p : ProcId)
  | dup (p : ProcId)
  | close (p : ProcId)
  | fork (p : ProcId)
  | exit (p : ProcId)
  | wait (p : ProcId)

/-- Who calls. -/
def FileCall.caller : FileCall → ProcId
  | user p _ _ | openat p | dup p | close p | fork p | exit p | wait p => p

/-- The call, and what it returns; 0 if it returns nothing. -/
def FileCall.body (env : Env) : FileCall → K Int
  | user p tf mem => do
    modify fun k => {k with mem}.setProc p fun q => {q with tf}
    return 0
  | openat p => sysOpenat env p
  | dup p => sysDup p
  | close p => sysClose env.sb p
  | fork p => Core.fork env p
  | exit p => do
    Core.exit env p
    return 0
  | wait p => do
    let r ← waitRound env p
    return r.getD 0

/-- The directory in which a call misses a name. -/
def FileCall.missed (env : Env) (k : Kernel) : FileCall → Option Nat
  | openat p => Core.missed env k p
  | _ => none

/-- The kernel, and how many references to each inode `sys_openat` has lost when it did
not find a name. -/
structure FileRun where
  kernel : Kernel
  lost : Nat → Int

/-- What the call returns, and the state after it. -/
def FileRun.exec (env : Env) (s : FileRun) (c : FileCall) : Option (Int × FileRun) :=
  if s.kernel.Gone c.caller then none
  else
    match (c.body env).run s.kernel with
    | .ok n k => some (n, ⟨k, s.lost + weight (c.missed env s.kernel)⟩)
    | .error _ _ => none

/-- How many open files and current directories there are of inode `i`. -/
noncomputable def Kernel.owned (k : Kernel) (i : Nat) : Int := (holders (fun x => k.vol.numberOf (k.owner x)) i).ncard

/-- No file has been opened yet. -/
structure Fresh (k : Kernel) : Prop where
  closed : ∀ σ, k.slot σ = none
  free : ∀ f, (k.ftable f).ref = 0 ∧ (k.ftable f).type = .none
  gone : ∀ p, k.Gone p → (k.proc p).cwd = none
  pid : ∀ c, 0 ≤ (k.procs c).pid
  counted : Counted k.vol
  live : ∀ p ip, (k.proc p).cwd = some ip → k.vol.Live ip
  finite : ∀ i, (holders (fun x => k.vol.numberOf (k.owner x)) i).Finite
  held : ∀ i, k.owned i ≤ k.vol.count i

theorem Fresh.tracked (h : Fresh k) : Tracked (fun i => k.vol.count i - k.owned i) k := by
  have hnone : ∀ f, holders k.slot f = ∅ := by
    intro f
    ext σ
    simp [holders, h.closed]
  refine ⟨⟨fun f => ?_, fun f => ?_⟩, fun f => ?_, fun p hp => ⟨fun fd => h.closed _, h.gone p hp⟩, h.pid,
    h.counted, fun x ip hx => ?_, h.finite, fun i => ?_⟩
  · rw [hnone]
    exact Set.finite_empty
  · rw [hnone, (h.free f).1, Set.ncard_empty]
    rfl
  · rw [(h.free f).1, (h.free f).2]
    rfl
  · cases x with
    | inl f =>
      rw [Kernel.owner, (h.free f).1] at hx
      cases hx
    | inr p => exact h.live p ip hx
  · show k.vol.count i - (k.vol.count i - k.owned i) = k.owned i
    omega

/-- What a call does that returns `n`. -/
structure CallEffect (env : Env) (s : FileRun) (c : FileCall) (n : Int) (s' : FileRun) : Prop where
  /-- An open file stays with its inode. -/
  ip : ∀ f, 0 < (s.kernel.ftable f).ref → (s'.kernel.ftable f).ip = (s.kernel.ftable f).ip
  /-- A call that fails changes no count, unless it has missed a name. -/
  failed : n = -1 → (∀ f, (s'.kernel.ftable f).ref = (s.kernel.ftable f).ref) ∧ s'.kernel.slot = s.kernel.slot ∧
    (c.missed env s.kernel = none → ∀ i, s'.kernel.vol.count i = s.kernel.vol.count i)
  /-- A file that is opened has one descriptor and one reference to its inode. -/
  opened : ∀ p, c = .openat p → n ≠ -1 → c.missed env s.kernel = none ∧
    ∃ (f : Fin nfile) (fd : Fin nofile), n = (fd : Nat) ∧ (s.kernel.ftable f).ref = 0 ∧
      s.kernel.slot (p, fd) = none ∧ s'.kernel.slot = update s.kernel.slot (p, fd) (some f) ∧
      (∀ e, (s'.kernel.ftable e).ref = if e = f then 1 else (s.kernel.ftable e).ref) ∧
      ∀ i, s'.kernel.vol.count i = s.kernel.vol.count i +
        if i = (s'.kernel.vol.heap (s'.kernel.ftable f).ip).inodeNo then 1 else 0
  /-- The reference is given back with the last descriptor, by one `inodes.put`. -/
  closed : ∀ p, c = .close p → n ≠ -1 → ∃ (f : Fin nfile) (fd : Fin nofile), s.kernel.slot (p, fd) = some f ∧
    s'.kernel.slot = update s.kernel.slot (p, fd) none ∧
    (∀ e, (s'.kernel.ftable e).ref = (s.kernel.ftable e).ref - if e = f then 1 else 0) ∧
    ((∃ σ, s'.kernel.slot σ = some f) → s'.kernel.vol = s.kernel.vol) ∧
    ((∀ σ, s'.kernel.slot σ ≠ some f) →
      (inodePut env.sb (s.kernel.ftable f).ip).run s.kernel.vol = .ok () s'.kernel.vol)

section Effects
variable {s s' : FileRun} {c : FileCall}

theorem CallEffect.of_idle (h : Idle s.kernel s'.kernel)
    (hcount : c.missed env s.kernel = none → ∀ i, s'.kernel.vol.count i = s.kernel.vol.count i)
    (hn : n = -1 ∨ ∀ p, c ≠ .openat p ∧ c ≠ .close p) : CallEffect env s c n s' := by
  refine ⟨fun f _ => by rw [h.ftable], fun _ => ⟨fun f => by rw [h.ftable], h.slot, hcount⟩, ?_, ?_⟩
  · intro p hc hne
    exact absurd hc ((hn.resolve_left hne) p).1
  · intro p hc hne
    exact absurd hc ((hn.resolve_left hne) p).2

theorem CallEffect.of_ip (hip : ∀ f, (s'.kernel.ftable f).ip = (s.kernel.ftable f).ip) (hn : n ≠ -1)
    (hc : ∀ p, c ≠ .openat p ∧ c ≠ .close p) : CallEffect env s c n s' :=
  ⟨fun f _ => hip f, fun he => absurd he hn, fun p he => absurd he (hc p).1, fun p he => absurd he (hc p).2⟩

theorem CallEffect.openat (ho : Opens env p s.kernel n s'.kernel) : CallEffect env s (.openat p) n s' := by
  generalize hk' : s'.kernel = k' at ho
  cases ho with
  | failed hidle hvol =>
    subst hk'
    refine .of_idle hidle (fun hmissed i => ?_) (Or.inl rfl)
    have hcount := hvol.count i
    have hnone : missed env s.kernel p = none := hmissed
    rw [hnone] at hcount
    exact hcount.trans (add_zero _)
  | @opened f fd file _ hmissed hfree hslot href htype hftable hprocs hvol =>
    subst hk'
    refine ⟨fun e he => ?ip, fun hn => ?fails, fun q hq _ => ⟨hmissed, f, fd, rfl, hfree, ?_⟩, nofun⟩
    case ip =>
      rw [hftable, update_of_ne fun hef => by rw [hef, hfree] at he; exact absurd he (Int.lt_irrefl 0)]
    case fails =>
      have := Int.natCast_nonneg (fd : Nat)
      omega
    · cases hq
      refine ⟨hslot, slot_of_procs hprocs, fun e => ?_, fun i => ?_⟩
      · rw [hftable, update_apply]
        split
        · exact href
        · rfl
      · rw [hftable, update_self, hvol.count, listed_cons, listed_nil, add_zero, Volume.one, Pi.single_apply]

theorem CallEffect.close (hk : Tracked rest s.kernel) (hslot : s.kernel.slot (p, fd) = some f)
    (hc : Closed env.sb f (s.kernel.setSlot p fd none) s'.kernel) : CallEffect env s (.close p) 0 s' := by
  have hslots : s'.kernel.slot = update s.kernel.slot (p, fd) none := slot_of_procs hc.procs
  refine ⟨fun e _ => hc.same_ip e, by simp, by simp, fun q hq _ => ?_⟩
  cases hq
  have hfile : ∀ (g : File → File), (g (s.kernel.ftable f)).ref = (s.kernel.ftable f).ref - 1 →
      ∀ e, (((s.kernel.setSlot p fd none).setFile f g).ftable e).ref =
        (s.kernel.ftable e).ref - if e = f then 1 else 0 := by
    intro g hg e
    by_cases he : e = f
    · rw [he, setFile_self, if_pos rfl]
      exact hg
    · rw [setFile_of_ne he, if_neg he]
      exact (sub_zero _).symm
  -- how many descriptors are left is in the count
  have hleft : (∃ σ, s'.kernel.slot σ = some f) → 1 < (s.kernel.ftable f).ref := by
    intro hex
    obtain ⟨σ, hσ⟩ := hex
    rw [hslots, update_apply] at hσ
    split at hσ
    case isTrue => cases hσ
    case isFalse hne => exact hk.files.two_le hslot hσ hne
  have hnone : (∀ σ, s'.kernel.slot σ ≠ some f) → (s.kernel.ftable f).ref = 1 := by
    intro hall
    have hempty : holders s.kernel.slot f = {(p, fd)} := by
      ext σ
      constructor
      · intro hσ
        by_contra hne
        apply hall σ
        rw [hslots, update_of_ne hne]
        exact hσ
      · intro hσ
        rw [hσ]
        exact hslot
    rw [hk.files.ref, hempty, Set.ncard_singleton]
    rfl
  refine ⟨f, fd, hslot, hslots, ?_⟩
  generalize s'.kernel = k' at *
  cases hc with
  | shared hmore =>
    have hmore' : 1 < (s.kernel.ftable f).ref := hmore
    refine ⟨hfile _ rfl, fun _ => rfl, fun hall => ?_⟩
    have := hnone hall
    omega
  | unset hone htype =>
    refine absurd ?_ htype
    have hone' : (s.kernel.ftable f).ref = 1 := hone
    show (s.kernel.ftable f).type = .inode
    rw [hk.type, if_pos (by omega)]
  | last hone htype hput =>
    have hone' : (s.kernel.ftable f).ref = 1 := hone
    refine ⟨hfile (fun g => {g with ref := 0, type := .none}) (by rw [hone']; rfl), fun hex => ?_, fun _ => hput⟩
    have := hleft hex
    omega

/-- A call from a state in which counts are right. -/
theorem FileRun.exec_effect (hk : Tracked rest s.kernel) (hrest : ∀ i, 0 ≤ rest i)
    (h : s.exec env c = some (n, s')) : Tracked (rest + weight (c.missed env s.kernel)) s'.kernel ∧
      s'.lost = s.lost + weight (c.missed env s.kernel) ∧ CallEffect env s c n s' := by
  unfold FileRun.exec at h
  split at h
  case isTrue => cases h
  case isFalse halive =>
    cases hrun : (c.body env).run s.kernel with
    | error e k' =>
      rw [hrun] at h
      cases h
    | ok m k' =>
      rw [hrun] at h
      obtain ⟨rfl, rfl⟩ := Prod.mk.inj (Option.some.inj h)
      clear h
      suffices hboth : Tracked (rest + weight (c.missed env s.kernel)) k' ∧ CallEffect env s c m ⟨k', _⟩ from
        ⟨hboth.1, rfl, hboth.2⟩
      -- only `sys_openat` can lose a reference
      have hsame : ∀ {k' : Kernel}, Tracked rest k' → Tracked (rest + weight none) k' := by
        intro k' hk'
        rwa [weight, add_zero]
      cases c with
      | user p tf mem =>
        cases hrun
        have hidle : Idle s.kernel ({s.kernel with mem}.setProc p fun q => {q with tf}) := by
          have hmem : Idle s.kernel {s.kernel with mem} := .of_eq rfl rfl
          refine hmem.trans (.setProc rfl rfl fun hg => ?_)
          rw [Kernel.Gone, proc_setProc] at hg
          exact hg
        exact ⟨hsame (hidle.same hk rfl), .of_idle hidle (fun _ _ => rfl) (Or.inr fun _ => ⟨by simp, by simp⟩)⟩
      | openat p =>
        have ho := sysOpenat_ok hk hrun
        exact ⟨hk.opens halive ho, .openat ho⟩
      | dup p =>
        rcases sysDup_ok hrun with ⟨rfl, rfl⟩ | ⟨f, fd, rfl, hslot, hpos, rfl⟩
        · exact ⟨hsame hk, .of_idle (.of_eq rfl rfl) (fun _ _ => rfl) (Or.inl rfl)⟩
        · refine ⟨hsame (hk.point hslot hpos halive),
            .of_ip (fun e => setFile_ref_ip e) ?_ fun _ => ⟨by simp, by simp⟩⟩
          have := Int.natCast_nonneg (fd : Nat)
          omega
      | close p =>
        rcases sysClose_ok hrun with ⟨rfl, rfl⟩ | ⟨rfl, fd, f, hslot, hc⟩
        · exact ⟨hsame hk, .of_idle (.of_eq rfl rfl) (fun _ _ => rfl) (Or.inl rfl)⟩
        · exact ⟨hsame (hk.clear hrest hslot hc), .close hk hslot hc⟩
      | fork p =>
        obtain ⟨htracked, hip, hfailed⟩ := fork_ok hk hrun
        refine ⟨hsame htracked, ?_⟩
        by_cases hn : m = -1
        · obtain ⟨hidle, hvol⟩ := hfailed hn
          exact .of_idle hidle (fun _ i => by rw [hvol]) (Or.inl hn)
        · exact .of_ip hip hn fun _ => ⟨by simp, by simp⟩
      | exit p =>
        obtain ⟨_, k1, hexit, hret⟩ := bind_eq_ok hrun
        cases hret
        obtain ⟨htracked, hip⟩ := exit_ok hk hrest hexit
        exact ⟨hsame htracked, .of_ip hip (by decide) fun _ => ⟨by simp, by simp⟩⟩
      | wait p =>
        obtain ⟨o, k1, hwait, hret⟩ := bind_eq_ok hrun
        cases hret
        obtain ⟨hidle, hvol⟩ := waitRound_ok hwait
        exact ⟨hsame (hidle.same hk hvol),
          .of_idle hidle (fun _ i => by rw [hvol]) (Or.inr fun _ => ⟨by simp, by simp⟩)⟩

end Effects

/-- **Counts of open files are right.** From a kernel in which no file has been opened,
in every run the count of an entry is the number of descriptors that point to it, and a
free entry has none. An open entry owns one reference to its inode from the `sys_openat`
that made it to the `inodes.put` of the call that clears its last descriptor: the
references to an inode are those of its open files and current directories, those there
were at the start, and those that `sys_openat` has lost at a missing name. A call that
fails for any other reason changes no count. -/
theorem open_files_counted (env : Env) {k0 : Kernel} (h0 : Fresh k0) {s : FileRun}
    (h : Reach (fun s c s' => (s.exec env c).map Prod.snd = some s') (fun _ _ => True) ⟨k0, 0⟩ s) :
    RefCounted s.kernel.slot (fun f => (s.kernel.ftable f).ref) ∧
    (∀ f, (s.kernel.ftable f).ref = 0 → ∀ σ, s.kernel.slot σ ≠ some f) ∧
    (∀ i, s.kernel.vol.count i - s.kernel.owned i = k0.vol.count i - k0.owned i + s.lost i) ∧
    ∀ c n s', s.exec env c = some (n, s') → CallEffect env s c n s' := by
  have hstart : ∀ i, 0 ≤ k0.vol.count i - k0.owned i := fun i => by
    have := h0.held i
    omega
  have hinv : Tracked ((fun i => k0.vol.count i - k0.owned i) + s.lost) s.kernel ∧ ∀ i, 0 ≤ s.lost i := by
    refine h.invariant (I := fun s => Tracked ((fun i => k0.vol.count i - k0.owned i) + s.lost) s.kernel ∧
      ∀ i, 0 ≤ s.lost i) ⟨?_, fun _ => Int.le_refl _⟩ ?_
    · show Tracked (_ + 0) k0
      rw [add_zero]
      exact h0.tracked
    · intro s c s' hs _ hstep
      obtain ⟨⟨n, _⟩, hexec, rfl⟩ := Option.map_eq_some_iff.mp hstep
      have hrest : ∀ i, 0 ≤ ((fun i => k0.vol.count i - k0.owned i) + s.lost) i :=
        fun i => add_nonneg (hstart i) (hs.2 i)
      obtain ⟨htracked, hlost, -⟩ := FileRun.exec_effect hs.1 hrest hexec
      rw [hlost]
      refine ⟨by rwa [← add_assoc], fun i => add_nonneg (hs.2 i) ?_⟩
      rw [weight_apply]
      split <;> decide
  obtain ⟨htracked, hlost⟩ := hinv
  refine ⟨htracked.files, fun f hf σ hσ => ?_, fun i => ?_, fun c n s' hc => ?_⟩
  · have := htracked.files.pos hσ
    omega
  · have hrefs := htracked.inodes.refs.ref i
    show s.kernel.vol.count i - (holders (fun x => s.kernel.vol.numberOf (s.kernel.owner x)) i).ncard = _
    rw [← hrefs, Pi.sub_apply, Pi.add_apply]
    omega
  · exact (FileRun.exec_effect htracked (fun i => add_nonneg (hstart i) (hlost i)) hc).2.2

/-- A disk with one file, and nothing of what a call cannot know. -/
def smallEnv : Env where
  sb := oneBlockDisk
  arena := .next
  console := fun _ => (0, [])
  stack := fun _ => []
  locals := fun _ => []
  kend := 0
  tree := flatTree
  initproc := (0, 1)

/-- A root directory with one entry, for inode 2 under the name `a`. -/
def smallTree : Volume where
  blocks := update (update (fun _ => zeroBlock)
    4 (setEntry (setEntry zeroBlock 1 {InodeEntry.zero with
      type := inodeDirectory, numLinks := 1, numBytes := 16, addrs := fun i => if i = 0 then 7 else 0})
      2 {InodeEntry.zero with type := inodeRegular, numLinks := 1}))
    7 (overwrite zeroBlock 0 (direntBytes 2 [97]))
  heap := fun _ => ⟨false, 0, 0, false, InodeEntry.zero⟩
  head := []
  allocs := 0

theorem smallTree_counted : Counted smallTree := ⟨.nil, nofun, fun _ _ hp => nomatch hp.1⟩

/-- The registers with which a process opens the file whose name is at address 0. -/
def openRegs : Trapframe := ⟨fun i => if i = 0 then 0xffffffffffffff9c else 0, 0, 0⟩

/-- A process that has `"/a"` in its memory. -/
def opener : Kernel where
  vol := smallTree
  mem := pageWith fun i => if i = 0 then 0x612f else 0
  procs := Containers.zero.setProc (0, 0) fun q =>
    {q with sz := 4096, pgdir := 0x1000, state := .running, tf := openRegs}
  ftable := fun _ => ⟨.none, 0, false, false, 0, 0⟩
  outstanding := 0

theorem opener_proc (p : ProcId) : (opener.proc p).cwd = none ∧ (opener.proc p).ofile = fun _ => none := by
  by_cases hp : p = (0, 0)
  · rw [hp]
    exact ⟨rfl, rfl⟩
  · have hzero : opener.proc p = .zero := proc_setProc_of_ne hp
    rw [hzero]
    exact ⟨rfl, rfl⟩

theorem opener_fresh : Fresh opener := by
  have hempty : ∀ i, holders (fun x => opener.vol.numberOf (opener.owner x)) i = ∅ := by
    intro i
    ext x
    have hx : opener.owner x = none := by
      cases x with
      | inl f => rfl
      | inr p => exact (opener_proc p).1
    simp [holders, hx, Volume.numberOf]
  constructor
  case closed =>
    intro σ
    rw [Kernel.slot, (opener_proc σ.1).2]
  case free => exact fun _ => ⟨rfl, rfl⟩
  case gone => exact fun p _ => (opener_proc p).1
  case pid =>
    intro c
    exact (setProc_pid (s := Containers.zero) (p := (0, 0)) (a := c)).ge
  case counted => exact smallTree_counted
  case live =>
    intro p ip hip
    rw [(opener_proc p).1] at hip
    cases hip
  case finite =>
    intro i
    rw [hempty]
    exact Set.finite_empty
  case held =>
    intro i
    rw [Kernel.owned, hempty, Set.ncard_empty]
    exact smallTree_counted.count_nonneg i

/-- The file is opened and the descriptor duplicated. -/
theorem open_files_counted_dup : ∃ s, Reach (fun s c s' => (FileRun.exec smallEnv s c).map Prod.snd = some s')
    (fun _ _ => True) ⟨opener, 0⟩ s ∧ (holders s.kernel.slot 0).ncard = 2 ∧
    s.kernel.vol.count 2 = s.kernel.owned 2 := by
  have hany : (runAll (fun s c => (FileRun.exec smallEnv s c).map Prod.snd) (fun _ _ => True) ⟨opener, 0⟩
      [.openat (0, 0), .user (0, 0) ⟨fun _ => 0, 0, 0⟩ opener.mem, .dup (0, 0)]).any
      (fun s => (s.kernel.ftable 0).ref == 2 && s.lost 2 == 0) = true := by decide +kernel
  obtain ⟨s, hreach, htest⟩ := Reach.exists_of_any hany
  rw [Bool.and_eq_true, beq_iff_eq, beq_iff_eq] at htest
  obtain ⟨hfiles, -, hbalance, -⟩ := open_files_counted smallEnv opener_fresh hreach
  refine ⟨s, hreach, ?_, ?_⟩
  · have hcount := hfiles.ref 0
    rw [htest.1] at hcount
    exact_mod_cast hcount.symm
  · have hzero : opener.vol.count 2 - opener.owned 2 = 0 := by
      have hheld := opener_fresh.held 2
      have hcount : opener.vol.count 2 = 0 := rfl
      have hnonneg : 0 ≤ opener.owned 2 := Int.natCast_nonneg _
      omega
    have := hbalance 2
    omega

end OS2021.Core
