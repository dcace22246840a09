import OS2021.Fs.Resolve

/-! Path resolution.

The names of a path are the runs of characters between its slashes (`runs`), each cut to the
length of a name. `namei` returns what they lead to, `nameiparent` what all but the last
lead to if it is a directory, and 0 otherwise: always, unless somebody has locked a
directory on the way. So how many slashes there are between two names does not matter.
References are balanced unless a directory on the way lacks the next name. -/
namespace OS2021.Fs
open Lib

/-! ### Runs -/

/-- The maximal runs of characters other than a slash. -/
def runs (path : List UInt8) : List (List UInt8) := (path.splitOnP (· = slash)).filter (· ≠ [])

/-- The runs, each cut to the length of a name. -/
def components (path : List UInt8) : List (List UInt8) := (runs path).map (·.take fileNameMaxLength)

section Runs
variable {path path' elem rest name name' a b : List UInt8}

theorem runs_append (a b : List UInt8) : runs (a ++ slash :: b) = runs a ++ runs b := by
  rw [runs, List.splitOnP_append_cons a b (decide_eq_true rfl), List.filter_append, runs, runs]

theorem runs_slash (path : List UInt8) : runs (slash :: path) = runs path := runs_append [] path

theorem runs_dropSlashes (path : List UInt8) : runs (path.dropWhile (· = slash)) = runs path := by
  induction path with
  | nil => rfl
  | cons c path ih =>
    by_cases hc : c = slash
    · rw [List.dropWhile_cons_of_pos (by simp [hc]), ih, hc, runs_slash]
    · rw [List.dropWhile_cons_of_neg (by simp [hc])]

/-- An element that ends at a slash or with the path is a run. -/
theorem runs_element (hne : elem ≠ []) (helem : ∀ c ∈ elem, c ≠ slash) (hrest : ∀ c ∈ rest.head?, c = slash) :
    runs (elem ++ rest) = elem :: runs rest := by
  have hone : runs elem = [elem] := by
    rw [runs, List.splitOnP_eq_singleton fun c hc => decide_eq_false (helem c hc)]
    exact List.filter_cons_of_pos (decide_eq_true hne)
  cases rest with
  | nil =>
    rw [List.append_nil, hone]
    rfl
  | cons c rest =>
    obtain rfl := hrest c rfl
    rw [runs_append, hone, runs_slash]
    rfl

/-- What `skipelem` takes off a path is its first run, cut to the length of a name. -/
theorem skipelem_runs (hpath : ∀ c ∈ path, c ≠ 0) (h : skipelem path name = some (path', name')) :
    ∃ elem, runs path = elem :: runs path' ∧ nameOf name' = elem.take fileNameMaxLength ∧
      (∀ c ∈ path', c ≠ 0) := by
  obtain ⟨hfirst, h⟩ := Option.ite_none_left_eq_some.mp h
  cases h
  rw [← runs_dropSlashes path]
  have hs : ∀ c ∈ path.dropWhile (· = slash), c ≠ 0 := fun c hc => hpath c ((List.dropWhile_sublist _).mem hc)
  have hstart : ∀ c ∈ (path.dropWhile (· = slash)).head?, c ≠ slash := by
    intro c hc
    have hnot := List.head?_dropWhile_not (fun c => decide (c = slash)) path
    rw [Option.mem_def] at hc
    rw [hc] at hnot
    exact of_decide_eq_false hnot
  generalize path.dropWhile (· = slash) = s at hfirst hs hstart
  have helem : ∀ c ∈ s.takeWhile fun c => c ≠ slash ∧ c ≠ 0, c ≠ slash ∧ c ≠ 0 := by
    intro c hc
    have htest := List.mem_takeWhile_imp hc
    exact of_decide_eq_true htest
  have hstop : ∀ c ∈ (s.dropWhile fun c => c ≠ slash ∧ c ≠ 0).head?, c = slash := by
    intro c hc
    have hnot := List.head?_dropWhile_not (fun c => decide (c ≠ slash ∧ c ≠ 0)) s
    rw [Option.mem_def] at hc
    rw [hc] at hnot
    have hzero := hs c ((List.dropWhile_sublist _).mem (List.mem_of_mem_head? hc))
    exact not_not.mp fun hne => of_decide_eq_false hnot ⟨hne, hzero⟩
  have hne : (s.takeWhile fun c => c ≠ slash ∧ c ≠ 0) ≠ [] := by
    cases s with
    | nil => exact absurd rfl hfirst
    | cons c s =>
      have htake : c ≠ slash ∧ c ≠ 0 := ⟨hstart c rfl, hfirst⟩
      rw [List.takeWhile_cons_of_pos (by simp [htake])]
      exact List.cons_ne_nil _ _
  refine ⟨s.takeWhile fun c => c ≠ slash ∧ c ≠ 0, ?_, nameOf_element fun c hc => (helem c hc).2, fun c hc => ?_⟩
  · rw [runs_dropSlashes, ← runs_element hne (fun c hc => (helem c hc).1) hstop, List.takeWhile_append_dropWhile]
  · exact hs c ((List.dropWhile_sublist _).mem ((List.dropWhile_sublist _).mem hc))

theorem pathNames_eq (hpath : ∀ c ∈ path, c ≠ 0) : pathNames path = components path := by
  induction hlen : path.length using Nat.strong_induction_on generalizing path with
  | _ len ih =>
    subst hlen
    cases hskip : skipelem path [] with
    | none =>
      have hnil : path.dropWhile (· = slash) = [] := by
        have hfirst := skipelem_none.mp hskip
        cases hs : path.dropWhile (· = slash) with
        | nil => rfl
        | cons c s =>
          have hc : c ∈ path := (List.dropWhile_sublist (· = slash)).mem (hs ▸ List.mem_cons_self ..)
          rw [hs] at hfirst
          exact absurd hfirst (hpath c hc)
      rw [pathNames_nil hskip, components, ← runs_dropSlashes, hnil]
      rfl
    | some next =>
      obtain ⟨rest, name⟩ := next
      obtain ⟨elem, hruns, hname, hrest⟩ := skipelem_runs hpath hskip
      rw [pathNames_cons hskip, ih rest.length (skipelem_length hskip) hrest rfl, components, components, hruns,
        hname, List.map_cons]

/-- `name` holds a name, with a NUL after it if there is room. -/
def NameHolds (name n : List UInt8) : Prop := n <+: name ∧ (n.length < fileNameMaxLength → n ++ [0] <+: name)

theorem skipelem_holds (h : skipelem path name = some (path', name')) : NameHolds name' (nameOf name') := by
  obtain ⟨-, h⟩ := Option.ite_none_left_eq_some.mp h
  cases h
  have helem := element_ne_zero path
  generalize (path.dropWhile (· = slash)).takeWhile (fun c => c ≠ slash ∧ c ≠ 0) = elem at helem
  rw [nameOf_element helem]
  split
  case isTrue hlong =>
    refine ⟨List.prefix_append .., fun hlt => ?_⟩
    rw [List.length_take, Nat.min_eq_left hlong] at hlt
    exact absurd hlt (Nat.lt_irrefl _)
  case isFalse hshort =>
    rw [List.take_of_length_le (Nat.le_of_not_le hshort)]
    exact ⟨List.prefix_append .., fun _ => ⟨name.drop (elem.length + 1), by simp⟩⟩

end Runs

/-! ### Where a path leads -/

section Target
variable (sb : SuperBlock) (s : Volume)

/-- The inode that the names but the last lead to, if it is a directory. -/
def Volume.parentNo (start : Nat) (names : List (List UInt8)) : Option Nat :=
  if names = [] then none else (follow (s.child sb) start names.dropLast).filter fun d => s.IsDir sb d

/-- Where `namex` is to end. -/
def Volume.target (nameiparent : Bool) (start : Nat) (names : List (List UInt8)) : Option Nat :=
  if nameiparent then s.parentNo sb start names else follow (s.child sb) start names

/-- A directory that the names lead to has nothing under the name that is next. -/
def Volume.Lacks (start : Nat) (names : List (List UInt8)) : Prop :=
  ∃ π d n, π ++ [n] <+: names ∧ follow (s.child sb) start π = some d ∧ s.IsDir sb d ∧ s.child sb d n = none

end Target

/-- The names that `namex` looks up. -/
def lookedUp (nameiparent : Bool) (names : List (List UInt8)) : List (List UInt8) :=
  if nameiparent then names.dropLast else names

variable {sb : SuperBlock} {s s' : Volume} {p cwd : Ptr} {path path' name name' n : List UInt8} {e : Exit}
  {start i fuel : Nat} {names : List (List UInt8)} {nameiparent : Bool}

theorem follow_cons :
    follow (s.child sb) start (n :: names) = (s.child sb start n).bind (follow (s.child sb) · names) :=
  List.foldlM_cons

theorem target_last : s.target sb true start [n] = if s.IsDir sb start then some start else none := by
  simp [Volume.target, Volume.parentNo, Option.filter_some]

/-- One name is looked up, unless it is the last and the parent is asked for. -/
theorem target_cons (hmore : ¬ (nameiparent = true ∧ names = [])) : s.target sb nameiparent start (n :: names) =
    (s.child sb start n).bind fun i => s.target sb nameiparent i names := by
  cases nameiparent with
  | false => exact follow_cons
  | true =>
    have hne : names ≠ [] := fun he => hmore ⟨rfl, he⟩
    have hparent : ∀ i, s.target sb true i names = s.parentNo sb i names := fun _ => rfl
    simp only [hparent]
    rw [show s.target sb true start (n :: names) = s.parentNo sb start (n :: names) from rfl, Volume.parentNo,
      if_neg (List.cons_ne_nil _ _), List.dropLast_cons_of_ne_nil hne, follow_cons]
    cases s.child sb start n with
    | none => rfl
    | some i =>
      rw [Option.bind_some, Option.bind_some, Volume.parentNo, if_neg hne]

theorem target_not_isDir (hdir : ¬ s.IsDir sb start) : s.target sb nameiparent start (n :: names) = none := by
  by_cases hlast : nameiparent = true ∧ names = []
  · obtain ⟨rfl, rfl⟩ := hlast
    rw [target_last, if_neg hdir]
  · rw [target_cons hlast, Volume.child, if_neg hdir]
    rfl

theorem target_congr {s1 : Volume} (h : Coherent sb s) (h1 : Coherent sb s1) (hb : s1.blocks = s.blocks) :
    s1.target sb nameiparent start names = s.target sb nameiparent start names := by
  have hdir : ∀ d, s1.IsDir sb d ↔ s.IsDir sb d := fun d => h.isDir_eq h1 hb
  simp only [Volume.target, Volume.parentNo, h.child_eq h1 hb, hdir]

theorem lookedUp_cons (hmore : ¬ (nameiparent = true ∧ names = [])) :
    lookedUp nameiparent (n :: names) = n :: lookedUp nameiparent names := by
  cases nameiparent with
  | false => rfl
  | true => exact List.dropLast_cons_of_ne_nil fun he => hmore ⟨rfl, he⟩

theorem not_lacks_nil : ¬ s.Lacks sb start [] := by
  intro ⟨π, d, n, hπ, _⟩
  exact absurd (List.prefix_nil.mp hπ) (by simp)

theorem lacks_cons : s.Lacks sb start (n :: names) ↔
    (s.IsDir sb start ∧ s.child sb start n = none) ∨ ∃ i, s.child sb start n = some i ∧ s.Lacks sb i names := by
  constructor
  · intro ⟨π, d, n', hπ, hd, hdir, hnone⟩
    cases π with
    | nil =>
      obtain ⟨rfl, -⟩ := List.cons_prefix_cons.mp hπ
      cases hd
      exact .inl ⟨hdir, hnone⟩
    | cons m π =>
      obtain ⟨rfl, hrest⟩ := List.cons_prefix_cons.mp hπ
      rw [follow_cons] at hd
      obtain ⟨i, hi, hd⟩ := Option.bind_eq_some_iff.mp hd
      exact .inr ⟨i, hi, π, d, n', hrest, hd, hdir, hnone⟩
  · intro h
    rcases h with ⟨hdir, hnone⟩ | ⟨i, hi, π, d, n', hπ, hd, hdir, hnone⟩
    · exact ⟨[], start, n, ⟨names, rfl⟩, rfl, hdir, hnone⟩
    · refine ⟨n :: π, d, n', List.cons_prefix_cons.mpr ⟨rfl, hπ⟩, ?_, hdir, hnone⟩
      rw [follow_cons, hi]
      exact hd

theorem lacks_not_isDir (hdir : ¬ s.IsDir sb start) : ¬ s.Lacks sb start names := by
  cases names with
  | nil => exact not_lacks_nil
  | cons n names =>
    rw [lacks_cons, Volume.child, if_neg hdir]
    simp [hdir]

theorem lacks_congr {s1 : Volume} (h : Coherent sb s) (h1 : Coherent sb s1) (hb : s1.blocks = s.blocks) :
    s1.Lacks sb start names ↔ s.Lacks sb start names := by
  have hdir : ∀ d, s1.IsDir sb d ↔ s.IsDir sb d := fun d => h.isDir_eq h1 hb
  simp only [Volume.Lacks, h.child_eq h1 hb, hdir]

/-! ### The walk -/

section Walk
variable (arena : Arena) (console : Console) (stack : List UInt8 → List UInt8) (nameiparent : Bool)
  (name : List UInt8)

theorem inodeUnlock_locked (hp : s.Live p) (hfree : (s.heap p).locked = false) :
    (inodeUnlock p).run (s.setInode p fun ip => {ip with locked := true}) = .ok () s := by
  rw [inodeUnlock_run (by rw [setInode_self]; exact hp.2) (by rw [setInode_self]), setInode_relock hfree]

/-- **The loop of `namex` ends where the names lead**, or at the directory that lacks one. -/
theorem namexFrom_result (h : FileTree sb s) (hp : s.Live p) (hfuel : path.length < fuel)
    (hfree : ∀ π x n, π ++ [n] <+: pathNames path → follow (s.child sb) (s.heap p).inodeNo π = some x →
      x ∉ s.lockedNos) :
    ∃ e name' s', (namexFrom sb arena console stack nameiparent fuel p path name).run s = .ok (e, name') s' ∧
      s'.blocks = s.blocks ∧
      s'.numberOf e.inode = s.target sb nameiparent (s.heap p).inodeNo (pathNames path) ∧
      (nameiparent = true → e.inode ≠ none →
        ∃ n, (pathNames path).getLast? = some n ∧ NameHolds name' n) ∧
      ((∃ d, e = .missing d) ↔ s.Lacks sb (s.heap p).inodeNo (lookedUp nameiparent (pathNames path))) := by
  induction fuel generalizing s p path name with
  | zero => exact absurd hfuel (Nat.not_lt_zero _)
  | succ fuel ih =>
    cases hskip : skipelem path name with
    | none =>
      rw [namexFrom, hskip, pathNames_nil hskip]
      cases nameiparent with
      | true =>
        exact ⟨.noElement, name, _, bind_ok (h.put_returns hp), rfl, rfl, fun _ hne => absurd rfl hne,
          iff_of_false (by simp) not_lacks_nil⟩
      | false => exact ⟨.found p, name, s, rfl, rfl, rfl, by simp, iff_of_false (by simp) not_lacks_nil⟩
    | some next =>
      obtain ⟨path', name'⟩ := next
      have hnames := pathNames_cons hskip
      have hlast := pathNames_rest hskip
      rw [hnames] at hfree ⊢
      have hunlocked := h.unlocked hp (hfree [] _ (nameOf name') ⟨pathNames path', rfl⟩ rfl)
      have hunlock := inodeUnlock_locked hp hunlocked
      have htype : ((s.setInode p fun ip => {ip with locked := true}).heap p).entry.type =
          (s.entryOf sb (s.heap p).inodeNo).type := by
        rw [setInode_self, ← h.entryOf hp]
      by_cases hdir : s.IsDir sb (s.heap p).inodeNo
      case neg =>
        have hother : (s.entryOf sb (s.heap p).inodeNo).type ≠ inodeDirectory := fun hd =>
          hdir ⟨h.intact.listed.allocated p hp, hd⟩
        refine ⟨.notDirectory, name', s.setInode p fun ip => {ip with rc := ip.rc - 1}, ?_, rfl,
          (target_not_isDir hdir).symm, fun _ hne => absurd rfl hne, iff_of_false (by simp) (lacks_not_isDir hdir)⟩
        rw [namexFrom, hskip]
        dsimp only
        rw [bind_ok (inodeLock_run hp.2 hunlocked), bind_ok (get_run _), htype, if_pos hother, bind_ok hunlock,
          bind_ok (h.put_returns hp)]
        rfl
      case pos =>
        have hisdir : ¬ (s.entryOf sb (s.heap p).inodeNo).type ≠ inodeDirectory := not_not.mpr hdir.2
        by_cases hend : nameiparent = true ∧ firstByte path' = 0
        case pos =>
          obtain ⟨rfl, hzero⟩ := hend
          refine ⟨.parent p, name', s, ?_, rfl, ?_, fun _ _ => ⟨nameOf name', ?_, skipelem_holds hskip⟩,
            iff_of_false (by simp) ?_⟩
          · rw [namexFrom, hskip]
            dsimp only
            rw [bind_ok (inodeLock_run hp.2 hunlocked), bind_ok (get_run _), htype, if_neg hisdir,
              if_pos ⟨rfl, hzero⟩, bind_ok hunlock]
            rfl
          · rw [hlast.mpr hzero, target_last, if_pos hdir]
            rfl
          · rw [hlast.mpr hzero]
            rfl
          · rw [hlast.mpr hzero]
            exact not_lacks_nil
        case neg =>
          have hmore : ¬ (nameiparent = true ∧ pathNames path' = []) := fun hm => hend ⟨hm.1, hlast.mp hm.2⟩
          rw [target_cons hmore, lookedUp_cons hmore, lacks_cons]
          cases hchild : s.child sb (s.heap p).inodeNo (nameOf name') with
          | none =>
            obtain ⟨o, hlookup⟩ := h.lookup_locked hp hdir console (stack path') name'
            rw [hchild, Option.getD_none] at hlookup
            refine ⟨.missing p, name', s, ?_, rfl, rfl, fun _ hne => absurd rfl hne,
              iff_of_true ⟨p, rfl⟩ (.inl ⟨hdir, rfl⟩)⟩
            rw [namexFrom, hskip]
            dsimp only
            rw [bind_ok (inodeLock_run hp.2 hunlocked), bind_ok (get_run _), htype, if_neg hisdir, if_neg hend,
              bind_ok hlookup, if_pos rfl, bind_ok hunlock]
            rfl
          | some i =>
            obtain ⟨nx, s1, hrun, h1, hb, hl, hnx, hno⟩ := namexFrom_step arena console stack h hp hunlocked hskip
              hend hchild
            have hsame := h.intact.coherent.child_eq h1.intact.coherent hb
            have hlen := skipelem_length hskip
            have hfree1 : ∀ π x n, π ++ [n] <+: pathNames path' →
                follow (s1.child sb) (s1.heap nx).inodeNo π = some x → x ∉ s1.lockedNos := by
              intro π x n hπ hx
              rw [hl]
              rw [hsame, hno] at hx
              refine hfree (nameOf name' :: π) x n (List.cons_prefix_cons.mpr ⟨rfl, hπ⟩) ?_
              rw [follow_cons, hchild]
              exact hx
            obtain ⟨e, name'', s', hwalk, hb', hresult, hname, hmissing⟩ := ih name' h1 hnx (by omega) hfree1
            refine ⟨e, name'', s', hrun.trans hwalk, hb'.trans hb, ?_, fun hpar hne => ?_, ?_⟩
            · rw [hresult, hno, target_congr h.intact.coherent h1.intact.coherent hb]
              rfl
            · obtain ⟨n, hn, hholds⟩ := hname hpar hne
              refine ⟨n, ?_, hholds⟩
              rw [List.getLast?_cons, hn]
              rfl
            · rw [hmissing, hno, lacks_congr h.intact.coherent h1.intact.coherent hb]
              simp

/-- `namex` from the start. -/
theorem namexExit_result (h : FileTree sb s) (hcwd : firstByte path ≠ slash → s.Live cwd)
    (hpath : ∀ c ∈ path, c ≠ 0)
    (hfree : ∀ π x n, π ++ [n] <+: components path → follow (s.child sb) (s.startNo cwd path) π = some x →
      x ∉ s.lockedNos) :
    ∃ e name' s', (namexExit sb arena console stack nameiparent cwd path name).run s = .ok (e, name') s' ∧
      s'.blocks = s.blocks ∧ (∀ q, e.inode = some q → s'.Live q) ∧
      s'.numberOf e.inode = s.target sb nameiparent (s.startNo cwd path) (components path) ∧
      (nameiparent = true → e.inode ≠ none → ∃ n, (components path).getLast? = some n ∧ NameHolds name' n) ∧
      ((∃ d, e = .missing d) ↔ s.Lacks sb (s.startNo cwd path) (lookedUp nameiparent (components path))) := by
  obtain ⟨ip, s1, hstart, h1, hb, hl, hlive, hno, -⟩ := namexStart_tree arena h hcwd
  have hsame := h.intact.coherent.child_eq h1.intact.coherent hb
  rw [← pathNames_eq hpath] at hfree ⊢
  rw [← hsame, ← hl, ← hno] at hfree
  obtain ⟨e, name', s', hwalk, hb', hresult, hname, hmissing⟩ := namexFrom_result arena console stack nameiparent
    name h1 hlive (Nat.lt_succ_self _) hfree
  rw [hno, target_congr h.intact.coherent h1.intact.coherent hb] at hresult
  rw [hno, lacks_congr h.intact.coherent h1.intact.coherent hb] at hmissing
  have hexit : (namexExit sb arena console stack nameiparent cwd path name).run s = .ok (e, name') s' := by
    rw [namexExit, bind_ok hstart]
    exact hwalk
  refine ⟨e, name', s', hexit, hb'.trans hb, fun q hq => ?_, hresult, hname, hmissing⟩
  refine (namexExit_borrowed h.counted hcwd hexit).live q ?_
  rw [hq]
  exact List.mem_cons_self ..

end Walk

/-! ### Slashes -/

/-- A directory of one entry, which is in block 7. -/
def rootEntry : InodeEntry :=
  {InodeEntry.zero with
    type := inodeDirectory, numLinks := 1, numBytes := 16, addrs := fun i => if i = 0 then 7 else 0}

/-- A disk with a root directory in which there is nothing but `"."`. -/
def dotRoot : Volume where
  blocks := Function.update (Function.update (Function.update (fun _ => zeroBlock) 4 (setEntry zeroBlock 1 rootEntry))
    5 fun i => if i = 0 then 255 else 0) 7 (overwrite zeroBlock 0 (direntBytes 1 [46]))
  heap := fun _ => ⟨false, 0, 0, false, InodeEntry.zero⟩
  head := []
  allocs := 0

theorem dotRoot_entryOf : dotRoot.entryOf roomyDisk 1 = rootEntry := by
  show getEntry (setEntry zeroBlock 1 rootEntry) 1 = rootEntry
  rw [getEntry_setEntry, if_pos rfl]

theorem dotRoot_one : OneInode roomyDisk dotRoot rootEntry 7 where
  allocated _ := allocated_three rfl (by rw [dotRoot_entryOf]; decide) (by decide +kernel) (by decide +kernel)
  entry := dotRoot_entryOf
  addrs := by decide
  indirect := rfl
  size := by decide

theorem dotRoot_intact : Intact roomyDisk dotRoot := by
  have hused : ∀ b < 12, dotRoot.isUsed roomyDisk b = decide (b < 8) := by decide +kernel
  refine ⟨dotRoot_one.consistent roomyDisk_layout (fun _ => ⟨by decide, by decide, hused 7 (by decide)⟩) (by decide)
    (fun b hb => ?below) (fun b hb hge hlt => ?exact), listed_nil rfl, coherent_nil rfl⟩
  case below =>
    have hb' : b < 7 := hb
    exact (hused b (by omega)).trans (decide_eq_true (by omega))
  case exact =>
    have hge' : 7 ≤ b := hge
    have hlt' : b < 8 := of_decide_eq_true ((hused b hlt).symm.trans hb)
    omega

theorem dotRoot_tree : FileTree roomyDisk dotRoot := by
  have hempty : ∀ p, ¬ p ∈ dotRoot.head := fun p => List.not_mem_nil
  have hroot : dotRoot.Allocated roomyDisk 1 := (dotRoot_one.allocated 1).mpr rfl
  have hone : ∀ d, dotRoot.IsDir roomyDisk d → d = 1 := fun d hd => (dotRoot_one.allocated d).mp hd.1
  have hsize : (dotRoot.entryOf roomyDisk 1).numBytes.toNat = 16 := by
    rw [dotRoot_entryOf]
    rfl
  refine ⟨dotRoot_intact, fun p hp => absurd hp (hempty p), fun p hp => absurd hp.1 (hempty p), by decide,
    ⟨hroot, ?_⟩, fun d hd => ?_, fun d hd => ?_, fun d name i hi => ?_, fun i hi => ?_⟩
  · rw [dotRoot_entryOf]
    rfl
  · rw [hone d hd, hsize]
    decide
  · rw [hone d hd, hsize]
    intro i hi j hj _ _ _ _ _
    have hi' : i < 1 := hi
    have hj' : j < 1 := hj
    omega
  · obtain rfl := hone d (isDir_of_child hi)
    rw [Volume.child, if_pos (isDir_of_child hi), hsize] at hi
    obtain ⟨⟨v, j⟩, hfind, rfl⟩ := Option.map_eq_some_iff.mp hi
    obtain ⟨hj, hslot⟩ := of_find_eq_some hfind
    have hj' : j < 1 := hj
    have hdot : slotAt (dotRoot.content roomyDisk 1) 0 = some ([46], 1) := by decide +kernel
    rw [Nat.lt_one_iff.mp hj', hdot] at hslot
    cases hslot
    exact ⟨show 1 < 3 by decide, hroot⟩
  · rw [(dotRoot_one.allocated i).mp hi, dotRoot_entryOf]
    decide

theorem dotRoot_unlocked (x : Nat) : x ∉ dotRoot.lockedNos := fun hx => by
  obtain ⟨p, hp, -⟩ := hx
  exact absurd hp.1 List.not_mem_nil

/-- **`namex` returns one reference and loses none if and only if no name it looks up is missing.** When it
returns an inode there is one more reference to that inode, and when it returns 0 there is none more: unless
a directory it comes to lacks the name that is next, in which case 0 is returned and the directory has one
more. No lock is held that was not held before. -/
theorem namex_balances_references (sb : SuperBlock) (arena : Arena) (console : Console)
    (stack : List UInt8 → List UInt8) (nameiparent : Bool) (s : Volume) (cwd : Ptr) (path name : List UInt8)
    (h : FileTree sb s) (hcwd : firstByte path ≠ slash → s.Live cwd) (hpath : ∀ c ∈ path, c ≠ 0)
    (hfree : ∀ π x n, π ++ [n] <+: components path → follow (s.child sb) (s.startNo cwd path) π = some x →
      x ∉ s.lockedNos) :
    ∃ r name' s', (namex sb arena console stack nameiparent cwd path name).run s = .ok (r, name') s' ∧
      s'.locks ⊆ s.locks ∧
      (((∀ ip, r = some ip → s'.Live ip ∧
          ∀ i, s'.count i = s.count i + if i = (s'.heap ip).inodeNo then 1 else 0) ∧
        (r = none → ∀ i, s'.count i = s.count i)) ↔
          ¬ s.Lacks sb (s.startNo cwd path) (lookedUp nameiparent (components path))) := by
  obtain ⟨e, name', s', hexit, -, -, -, -, hmissing⟩ := namexExit_result arena console stack nameiparent name h hcwd
    hpath hfree
  obtain ⟨hlocks, hmoved, hlive, -⟩ := namexExit_moved h.counted hcwd hexit
  refine ⟨e.inode, name', s', ?_, hlocks, ?_⟩
  · rw [namex, bind_ok hexit]
    rfl
  have hone : ∀ ip, e.kept = some ip → s'.Live ip ∧
      ∀ i, s'.count i = s.count i + if i = (s'.heap ip).inodeNo then 1 else 0 := by
    intro ip hip
    refine ⟨hlive ip hip, fun i => ?_⟩
    rw [hmoved.count, hip, Volume.one, Pi.single_apply]
  have hnone : e.kept = none → ∀ i, s'.count i = s.count i := by
    intro hkept i
    rw [hmoved.count, hkept]
    exact add_zero _
  rw [← hmissing]
  constructor
  · intro hbalanced hmiss
    obtain ⟨d, rfl⟩ := hmiss
    -- the reference to the directory is the one that is lost
    have hmore := (hone d rfl).2 (s'.heap d).inodeNo
    rw [hbalanced.2 rfl, if_pos rfl] at hmore
    omega
  · intro hfound
    have hkept : e.kept = e.inode := by
      cases e with
      | missing d => exact absurd ⟨d, rfl⟩ hfound
      | _ => rfl
    exact ⟨fun ip hip => hone ip (hkept.trans hip), fun hr => hnone (hkept.trans hr)⟩

/-- `namei("/.")` -/
theorem namex_balances_references_dot : ∃ ip name' s',
    (namex roomyDisk .next (fun _ => (0, [])) (fun _ => []) false 0 [47, 46] []).run dotRoot =
      .ok (some ip, name') s' ∧ s'.Live ip ∧ s'.count 1 = 1 := by
  have hfound : ¬ dotRoot.Lacks roomyDisk 1 [[46]] := by
    have hchild : dotRoot.child roomyDisk 1 [46] = some 1 := by decide +kernel
    rw [lacks_cons, hchild]
    simp [not_lacks_nil]
  have htest : returnedWith (fun r s' => r.1.any fun ip => (s'.heap ip).inodeNo == 1)
      ((namex roomyDisk .next (fun _ => (0, [])) (fun _ => []) false 0 [47, 46] []).run dotRoot) = true := by
    decide +kernel
  obtain ⟨r, name', s', hrun, -, hbalance⟩ := namex_balances_references roomyDisk .next (fun _ => (0, []))
    (fun _ => []) false dotRoot 0 [47, 46] [] dotRoot_tree (fun hne => absurd rfl hne) (by simp)
    (fun _ x _ _ _ => dotRoot_unlocked x)
  rw [hrun] at htest
  obtain ⟨ip, rfl, hno⟩ := (Option.any_eq_true _ _).mp htest
  obtain ⟨hlive, hcount⟩ := (hbalance.mpr hfound).1 ip rfl
  refine ⟨ip, name', s', hrun, hlive, ?_⟩
  rw [hcount, beq_iff_eq.mp hno]
  rfl

/-- `namei("/b")` returns 0 and leaves a reference to the root directory. -/
theorem missing_name_leaks : FileTree roomyDisk dotRoot ∧ dotRoot.count 1 = 0 ∧ ∃ s',
    (namex roomyDisk .next (fun _ => (0, [])) (fun _ => []) false 0 [slash, 98] []).run dotRoot =
      .ok (none, [98, 0]) s' ∧ s'.count 1 = 1 := by
  have htest : returnedWith (fun r s' => r == (none, [98, 0]) && s'.count 1 == 1)
      ((namex roomyDisk .next (fun _ => (0, [])) (fun _ => []) false 0 [slash, 98] []).run dotRoot) = true := by
    decide +kernel
  obtain ⟨r, s', hrun, htest⟩ := exists_of_returnedWith htest
  simp only [Bool.and_eq_true, beq_iff_eq] at htest
  exact ⟨dotRoot_tree, rfl, s', htest.1 ▸ hrun, htest.2⟩

end OS2021.Fs
