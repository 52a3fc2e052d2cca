import LinuxDemo.Lib.Walk

/-!
# The walk through a file tree

`directory/file_tree_walk/main.c`: `fileTreeWalk` hands `walkInfo` to `nftw` with the flag
`FTW_ACTIONRETVAL`, so that a directory named `.git` is shown but not entered. Without `FTW_PHYS`
symbolic links are followed; what is below a directory is then a graph that may have cycles, and
`nftw` comes to every directory once.

**Failures.** `walkInfo` is called for a file where `stat` fails with `EACCES` or `ENOENT`, and for
a directory where `opendir` fails with `EACCES`. Any other failure, as that of `stat` for a link to
itself, ends the walk: `nftw` calls `walkInfo` no more and returns -1.

* `walk_ends`: the walk ends. Where it returns 0 it shows no directory twice and everything else
  once for each of its names; where it returns -1 it shows a beginning of that.
* `shown_path`: what every line says of its file is right, and none is about a file in a `.git`.
* `directory_iff`: which directories are shown by a walk that returns 0.
-/

namespace LinuxDemo.FileTreeWalk

/-! ## The program -/

/-- `st_mode & S_IFMT`. -/
inductive FileMode where
  | reg
  | dir
  | chr
  | blk
  | lnk
  | fifo
  | sock
  | other
  deriving DecidableEq

/-- What the program reads of a `struct stat`. -/
structure Stat where
  mode : FileMode
  size : ℤ
  deriving DecidableEq

/-- The `FTW_` type flags. -/
inductive TypeFlag where
  | d
  | dnr
  | dp
  | f
  | sl
  | sln
  | ns
  deriving DecidableEq

def FileMode.text : FileMode → List Char
  | reg => "- ".toList
  | dir => "d ".toList
  | chr => "c ".toList
  | blk => "b ".toList
  | lnk => "l ".toList
  | fifo => "p ".toList
  | sock => "s ".toList
  | other => "? ".toList

def TypeFlag.text : TypeFlag → List Char
  | d => "D\t".toList
  | dnr => "DNR\t".toList
  | dp => "DP\t".toList
  | f => "F\t".toList
  | sl => "SL\t".toList
  | sln => "SLN\t".toList
  | ns => "NS\t".toList

/-- `%7jd`. -/
def sizeText (size : ℤ) : List Char :=
  List.replicate (7 - (toString size).length) ' ' ++ (toString size).toList

def git : List Char := ['.', 'g', 'i', 't']

def FTW_SKIP_SUBTREE : ℤ := 2

/-- What `walkInfo` prints and returns. -/
def walkInfo (pathName : List Char) (sb : Stat) (typeFlag : TypeFlag) (base : ℕ) : List Char × ℤ :=
  let size := if typeFlag = .ns then "-------".toList else sizeText sb.size
  let basePath := pathName.drop base
  let text := sb.mode.text ++ typeFlag.text ++ size ++ "   ".toList ++ pathName ++ "(".toList ++
    basePath ++ ")\n".toList
  if basePath = git then
    (text ++ "skip .git...............................\n".toList, FTW_SKIP_SUBTREE)
  else (text, 0)

/-- What a name leads to when symbolic links are followed; `ι` are the directories. -/
inductive Found (ι : Type*) where
  | dir (i : ι)
  | file (sb : Stat)
  /-- A link for which `stat` fails with `ENOENT` or `EACCES`, with the `lstat` of the link. -/
  | dangling (sb : Stat)
  /-- Something else for which `stat` fails with `ENOENT` or `EACCES`; what `sb` is then is not
  defined. -/
  | unknown (sb : Stat)
  deriving DecidableEq

structure Dir (ι : Type*) where
  size : ℤ
  /-- `opendir` does not fail with `EACCES`. -/
  readable : Bool
  /-- The entries, without `.` and `..`. -/
  entries : List (List Char × Found ι)

/-- The paths where a call fails with an error that ends the walk. -/
structure Failures where
  /-- `stat` fails with neither `EACCES` nor `ENOENT`, as for a link to itself or a path that is too
  long; for `..`, it fails at all. -/
  stat : List Char → Bool
  /-- `opendir` fails with something other than `EACCES`, or there is no memory for it. -/
  opendir : List Char → Bool

/-- No call fails so. -/
def Failures.none : Failures := ⟨fun _ => false, fun _ => false⟩

variable {ι : Type*}

/-- One call of the function that is handed to `nftw`: the path, where its last component starts,
and the file it leads to. -/
structure Visit (ι : Type*) where
  path : List Char
  base : ℕ
  found : Found ι
  deriving DecidableEq

/-- The call for an entry of the directory of `v`. -/
def Visit.child (v : Visit ι) (e : List Char × Found ι) : Visit ι where
  path := v.path ++ '/' :: e.1
  base := v.path.length + 1
  found := e.2

section Program

variable (fs : ι → Dir ι) (bad : Failures)

def Found.stat : Found ι → Stat
  | dir i => ⟨.dir, (fs i).size⟩
  | file sb | dangling sb | unknown sb => sb

def Found.typeFlag : Found ι → TypeFlag
  | dir i => if (fs i).readable then .d else .dnr
  | file _ => .f
  | dangling _ => .sln
  | unknown _ => .ns

def Found.directory : Found ι → Option ι
  | dir i => some i
  | _ => none

def Visit.info (v : Visit ι) : List Char × ℤ :=
  walkInfo v.path (v.found.stat fs) (v.found.typeFlag fs) v.base

/-- The calls of `nftw` after the call `v`. `walkInfo` returns 0 or `FTW_SKIP_SUBTREE`, so what
other results do is not modelled. -/
def Visit.children (v : Visit ι) : List (Visit ι) :=
  match v.found with
  | .dir i => if (fs i).readable ∧ (v.info fs).2 = 0 then (fs i).entries.map v.child else []
  | _ => []

/-- What `nftw` does with an entry: `stat`, then for a directory it has not come to yet `opendir`,
and then the call of `walkInfo`. -/
def walk : Walk (Visit ι) ι where
  node v := v.found.directory
  stops v := bad.stat v.path
  shut v := v.found.directory.isSome && bad.opendir v.path
  expand v := v.children fs
  leaf v h := by
    unfold Visit.children
    cases hv : v.found with
    | dir i =>
      rw [hv] at h
      cases h
    | _ => rfl

/-- The first call, for the path `..`. -/
def start (root : ι) : Visit ι := ⟨['.', '.'], 0, .dir root⟩

variable [Fintype ι] [DecidableEq ι]

/-- `nftw("..", walkInfo, 10, FTW_ACTIONRETVAL)`: its calls of `walkInfo`, and its result. -/
def nftw (root : ι) : Option (List (Visit ι) × ℤ) :=
  ((walk fs bad).run (1 + ∑ i, (fs i).entries.length) [start root] ∅).map fun r =>
    (r.1, if r.2 then 0 else -1)

/-- What `fileTreeWalk("..")` prints. -/
def fileTreeWalk (root : ι) : Option (List Char) :=
  (nftw fs bad root).map fun r =>
    r.1.flatMap (fun v => (v.info fs).1) ++ "nftw return ".toList ++ (toString r.2).toList ++
      "\n".toList

end Program

/-! ## The names -/

/-- The path that `nftw` makes of names. -/
def pathOf (names : List (List Char)) : List Char := ['.', '.'] ++ names.flatMap ('/' :: ·)

/-- The last one, of the path `..` too. -/
def lastName (names : List (List Char)) : List Char := names.getLast?.getD ['.', '.']

theorem pathOf_snoc (names : List (List Char)) (name : List Char) :
    pathOf (names ++ [name]) = pathOf names ++ '/' :: name := by
  simp [pathOf]

theorem lastName_snoc (names : List (List Char)) (name : List Char) :
    lastName (names ++ [name]) = name := by
  simp [lastName]

/-- The names lead from the directory `root` to a file. -/
inductive Leads (fs : ι → Dir ι) (root : ι) : List (List Char) → Found ι → Prop
  | nil : Leads fs root [] (.dir root)
  | snoc {names : List (List Char)} {name : List Char} {i : ι} {f : Found ι}
      (h : Leads fs root names (.dir i)) (hr : (fs i).readable = true)
      (he : (name, f) ∈ (fs i).entries) : Leads fs root (names ++ [name]) f

/-- The call says of its file what is right: a path that leads to it, no directory on the way was
called `.git`, and the last component starts at `base`. -/
def Right (fs : ι → Dir ι) (root : ι) (v : Visit ι) : Prop :=
  ∃ names, v.path = pathOf names ∧ Leads fs root names v.found ∧ git ∉ names.dropLast ∧
    v.path.drop v.base = lastName names

theorem info_eq_zero_iff (fs : ι → Dir ι) (v : Visit ι) :
    (v.info fs).2 = 0 ↔ v.path.drop v.base ≠ git := by
  simp only [Visit.info, walkInfo, apply_ite Prod.snd]
  by_cases h : v.path.drop v.base = git
  · simp only [h, if_true, ne_eq, not_true, iff_false]
    decide
  · simp only [h, if_false, ne_eq, not_false_eq_true]

theorem Found.directory_eq_some {f : Found ι} {i : ι} : f.directory = some i ↔ f = .dir i := by
  cases f with
  | dir j => simp [directory]
  | _ => simp [directory]

/-- The directories that follow the call for a directory depend on its name only by whether that is
`.git`. -/
theorem nodes_children {fs : ι → Dir ι} {bad : Failures} {v : Visit ι} {i : ι} (h : v.found = .dir i) :
    (walk fs bad).nodes (v.children fs) =
      if (fs i).readable ∧ v.path.drop v.base ≠ git then
        (fs i).entries.filterMap fun e => e.2.directory
      else [] := by
  unfold Visit.children
  simp only [h, info_eq_zero_iff]
  split_ifs
  · exact List.filterMap_map
  · rfl

/-- What `nftw` visits after a call. -/
theorem behind_iff {fs : ι → Dir ι} {bad : Failures} {v w : Visit ι} :
    (walk fs bad).Behind v w ↔ ∃ i e, v.found = .dir i ∧ (fs i).readable = true ∧
      v.path.drop v.base ≠ git ∧ e ∈ (fs i).entries ∧ w = v.child e := by
  show w ∈ v.children fs ↔ _
  unfold Visit.children
  cases hv : v.found with
  | dir i =>
    simp only [info_eq_zero_iff]
    split_ifs with h
    · rw [List.mem_map]
      constructor
      · rintro ⟨e, he, rfl⟩
        exact ⟨i, e, rfl, h.1, h.2, he, rfl⟩
      · rintro ⟨j, e, hj, -, -, he, rfl⟩
        cases hj
        exact ⟨e, he, rfl⟩
    · refine iff_of_false (by simp) ?_
      rintro ⟨j, e, hj, hr, hg, -, -⟩
      cases hj
      exact h ⟨hr, hg⟩
  | _ =>
    refine iff_of_false (by simp) ?_
    rintro ⟨j, e, hj, -⟩
    cases hj

theorem drop_child (v : Visit ι) (e : List Char × Found ι) :
    (v.child e).path.drop (v.child e).base = e.1 := by
  show (v.path ++ '/' :: e.1).drop (v.path.length + 1) = e.1
  rw [List.drop_append]
  simp

theorem right_start (fs : ι → Dir ι) (root : ι) : Right fs root (start root) :=
  ⟨[], rfl, .nil, by simp, rfl⟩

theorem Right.behind {fs : ι → Dir ι} {bad : Failures} {root : ι} {v w : Visit ι}
    (h : Right fs root v) (hw : (walk fs bad).Behind v w) : Right fs root w := by
  obtain ⟨names, hpath, hleads, hgit, hlast⟩ := h
  obtain ⟨i, e, hi, hr, hg, he, rfl⟩ := behind_iff.1 hw
  rw [hi] at hleads
  refine ⟨names ++ [e.1], ?_, hleads.snoc hr he, ?_, ?_⟩
  · rw [pathOf_snoc, ← hpath]
    rfl
  · rw [List.dropLast_concat]
    intro hmem
    -- `.git` is not before the last name of `v`, and that is not `.git` since `v` was entered.
    rcases List.eq_nil_or_concat names with rfl | ⟨init, name, rfl⟩
    · cases hmem
    · rw [List.concat_eq_append] at hmem hgit hlast
      rw [List.dropLast_concat] at hgit
      rw [lastName_snoc] at hlast
      rcases List.mem_append.1 hmem with hmem | hmem
      · exact hgit hmem
      · exact hg (hlast.trans (List.mem_singleton.1 hmem).symm)
  · rw [lastName_snoc, drop_child]

theorem Right.reaches {fs : ι → Dir ι} {bad : Failures} {root : ι} {v w : Visit ι}
    (h : Right fs root v) (hw : (walk fs bad).Reaches v w) : Right fs root w := by
  induction hw with
  | refl => exact h
  | tail _ hstep ih => exact ih.behind hstep

/-- Names without `.git` on the way are followed. -/
theorem exists_reaches {fs : ι → Dir ι} (bad : Failures) {root : ι} {names : List (List Char)}
    {f : Found ι} (h : Leads fs root names f) (hgit : git ∉ names.dropLast) :
    ∃ v, (walk fs bad).Reaches (start root) v ∧ v.found = f ∧
      v.path.drop v.base = lastName names := by
  induction h with
  | nil => exact ⟨start root, .refl, rfl, rfl⟩
  | @snoc names name i f hleads hr he ih =>
    rw [List.dropLast_concat] at hgit
    obtain ⟨v, hreach, hfound, hlast⟩ := ih fun hmem => hgit (List.mem_of_mem_dropLast hmem)
    have hne : v.path.drop v.base ≠ git := by
      rw [hlast]
      rcases List.eq_nil_or_concat names with rfl | ⟨init, last, rfl⟩
      · decide
      · rw [List.concat_eq_append, lastName_snoc]
        rintro rfl
        exact hgit (by simp)
    refine ⟨v.child (name, f), hreach.tail (behind_iff.2 ⟨i, _, hfound, hr, hne, he, rfl⟩), rfl, ?_⟩
    rw [lastName_snoc, drop_child]

/-! ## Directories with several names -/

/-- No directory is called `.git` by one entry and something else by another, where the start is
called `..`. Only links can give a directory a second name. -/
structure OneName (fs : ι → Dir ι) (root : ι) : Prop where
  entries : ∀ {i j k name name'}, (name, .dir k) ∈ (fs i).entries → (name', .dir k) ∈ (fs j).entries →
    (name = git ↔ name' = git)
  root : ∀ {i name}, (name, .dir root) ∈ (fs i).entries → name ≠ git

/-- A call is the first one, or it is for an entry and has the name of the entry. -/
theorem entry_of_reaches {fs : ι → Dir ι} {bad : Failures} {root : ι} {v : Visit ι}
    (h : (walk fs bad).Reaches (start root) v) :
    v = start root ∨ ∃ i, (v.path.drop v.base, v.found) ∈ (fs i).entries := by
  cases h with
  | refl => exact Or.inl rfl
  | tail _ hstep =>
    obtain ⟨i, e, -, -, -, he, rfl⟩ := behind_iff.1 hstep
    refine Or.inr ⟨i, ?_⟩
    rwa [drop_child]

theorem OneName.git_iff {fs : ι → Dir ι} {bad : Failures} {root i : ι} (h : OneName fs root)
    {v w : Visit ι}
    (hv : (walk fs bad).Reaches (start root) v) (hw : (walk fs bad).Reaches (start root) w)
    (hvi : v.found = .dir i) (hwi : w.found = .dir i) :
    v.path.drop v.base = git ↔ w.path.drop w.base = git := by
  have hroot : (start root).path.drop (start root).base ≠ git := by
    show ['.', '.'] ≠ git
    decide
  rcases entry_of_reaches hv with rfl | ⟨j, hj⟩
  · cases hvi
    rcases entry_of_reaches hw with rfl | ⟨k, hk⟩
    · exact Iff.rfl
    · rw [hwi] at hk
      exact iff_of_false hroot (h.root hk)
  · rw [hvi] at hj
    rcases entry_of_reaches hw with rfl | ⟨k, hk⟩
    · cases hwi
      exact iff_of_false (h.root hj) hroot
    · rw [hwi] at hk
      exact h.entries hj hk

/-! ## The walk -/

section Results

variable [Fintype ι] [DecidableEq ι] {fs : ι → Dir ι} {bad : Failures} {root : ι}

/-- The directories that are shown, in order. -/
def directories (visits : List (Visit ι)) : List ι := visits.filterMap fun v => v.found.directory

/-- The calls for everything else. -/
def others (visits : List (Visit ι)) : List (Visit ι) :=
  visits.filter fun v => v.found.directory.isNone

/-- The walk through the files, and the result of `nftw`. -/
theorem nftw_eq_some {visits : List (Visit ι)} {ret : ℤ} (h : nftw fs bad root = some (visits, ret)) :
    ∃ c, (walk fs bad).Visits [start root] ∅ visits c ∧ ret = if c then 0 else -1 := by
  obtain ⟨⟨out, c⟩, hrun, he⟩ := Option.map_eq_some_iff.1 h
  cases he
  exact ⟨c, Walk.visits_of_run hrun, rfl⟩

theorem complete_of_zero {visits : List (Visit ι)} (h : nftw fs bad root = some (visits, 0)) :
    (walk fs bad).Visits [start root] ∅ visits true := by
  obtain ⟨c, hvisits, hret⟩ := nftw_eq_some h
  cases c with
  | true => exact hvisits
  | false => cases hret

theorem nftw_isSome (fs : ι → Dir ι) (bad : Failures) (root : ι) :
    ∃ visits ret, nftw fs bad root = some (visits, ret) := by
  have hsome : ((walk fs bad).run (1 + ∑ i, (fs i).entries.length) [start root] ∅).isSome := by
    refine Walk.run_isSome (fun i => (fs i).entries.length) ?_ ?_
    · intro v i hv
      show (v.children fs).length ≤ _
      unfold Visit.children
      cases hf : v.found with
      | dir j =>
        obtain rfl : j = i := by
          have hj : v.found.directory = some i := hv
          rw [hf] at hj
          exact Option.some.inj hj
        simp only
        split_ifs
        · rw [List.length_map]
        · exact Nat.zero_le _
      | _ => exact Nat.zero_le _
    · rw [Finset.compl_empty]
      rfl
  obtain ⟨r, hr⟩ := Option.isSome_iff_exists.1 hsome
  exact ⟨r.1, _, Option.map_eq_some_iff.2 ⟨r, hr, rfl⟩⟩

omit [Fintype ι] [DecidableEq ι] in
theorem whole_walk (fs : ι → Dir ι) (bad : Failures) : (walk fs bad).whole = walk fs .none := by
  have hshut : (walk fs .none).shut = fun _ => false :=
    funext fun v => Bool.and_false v.found.directory.isSome
  show Walk.mk _ _ _ _ _ = Walk.mk _ _ (walk fs .none).shut _ _
  simp only [hshut]
  rfl

omit [Fintype ι] in
theorem right_of_visits {visits : List (Visit ι)} {c : Bool}
    (h : (walk fs bad).Visits [start root] ∅ visits c) {v : Visit ι} (hv : v ∈ visits) :
    Right fs root v := by
  obtain ⟨w, hw, hreach⟩ := h.reaches v hv
  rw [List.mem_singleton.1 hw] at hreach
  exact (right_start fs root).reaches hreach

omit [Fintype ι] in
/-- A walk that gives up has come to a path where a call fails. -/
theorem exists_failure {visits : List (Visit ι)}
    (h : (walk fs bad).Visits [start root] ∅ visits false) :
    ∃ w, (w = start root ∨ ∃ v ∈ visits, w ∈ v.children fs) ∧ Right fs root w ∧
      (bad.stat w.path = true ∨ ∃ i, w.found = .dir i ∧ bad.opendir w.path = true) := by
  obtain ⟨w, hw, hfails⟩ := h.failed
  refine ⟨w, hw.imp List.mem_singleton.1 id, ?_, hfails.imp id fun hshut => ?_⟩
  · rcases hw with hw | ⟨v, hv, hbehind⟩
    · rw [List.mem_singleton.1 hw]
      exact right_start fs root
    · exact (right_of_visits h hv).behind hbehind
  · obtain ⟨hdir, hopen⟩ := Bool.and_eq_true_iff.1 hshut
    obtain ⟨i, hi⟩ := Option.isSome_iff_exists.1 hdir
    exact ⟨i, Found.directory_eq_some.1 hi, hopen⟩

/-- **The walk ends**, for every graph of directories and links, cycles included, and whatever calls
fail. Where none fails it shows no directory twice, and everything else exactly once for each entry
of a directory that it has entered, and returns 0. With failures it shows a beginning of that: all
of it and returns 0, or it returns -1 after a call has failed for the start or for an entry of a
directory that it has shown. -/
theorem walk_ends (fs : ι → Dir ι) (bad : Failures) (root : ι) :
    ∃ all visits ret, nftw fs .none root = some (all, 0) ∧ (directories all).Nodup ∧
      (others all).Perm (others (all.flatMap (Visit.children fs))) ∧
      nftw fs bad root = some (visits, ret) ∧ visits <+: all ∧
      (ret = 0 ∧ visits = all ∨ ret = -1 ∧
        ∃ w, (w = start root ∨ ∃ v ∈ visits, w ∈ v.children fs) ∧ Right fs root w ∧
          (bad.stat w.path = true ∨ ∃ i, w.found = .dir i ∧ bad.opendir w.path = true)) := by
  obtain ⟨visits, ret, hvisits⟩ := nftw_isSome fs bad root
  obtain ⟨all, ret', hall⟩ := nftw_isSome fs .none root
  obtain ⟨c, h, rfl⟩ := nftw_eq_some hvisits
  obtain ⟨d, hwhole, rfl⟩ := nftw_eq_some hall
  rw [← whole_walk fs bad] at hwhole
  obtain rfl : d = true := hwhole.complete
  obtain ⟨hbegin, hsame⟩ := h.isPrefix hwhole
  refine ⟨all, visits, _, hall, hwhole.nodup.1, hwhole.perm, hvisits, hbegin, ?_⟩
  cases c with
  | true => exact Or.inl ⟨rfl, hsame rfl⟩
  | false => exact Or.inr ⟨rfl, exists_failure h⟩

/-- **Every line is right**: its path leads to its file, no directory on the way was called `.git`,
and what it shows as the name is the last name of the path. -/
theorem shown_path {visits : List (Visit ι)} {ret : ℤ} (h : nftw fs bad root = some (visits, ret))
    {v : Visit ι} (hv : v ∈ visits) : Right fs root v := by
  obtain ⟨c, hvisits, -⟩ := nftw_eq_some h
  exact right_of_visits hvisits hv

/-- A directory with a file, a link to its directory, a `.git` and a link to itself. -/
def checkout : Bool → Dir Bool
  | false => ⟨4096, true,
      [("here".toList, .dir false), (git, .dir true), ("Makefile".toList, .file ⟨.reg, 120⟩),
        ("loop".toList, .unknown ⟨.lnk, 4⟩), ("README".toList, .file ⟨.reg, 80⟩)]⟩
  | true => ⟨4096, true, [("HEAD".toList, .file ⟨.reg, 23⟩)]⟩

/-- `stat` of the link to itself fails with `ELOOP`. -/
def eloop : Failures := { Failures.none with stat := fun path => path = "../loop".toList }

/-- What is shown before the link to itself. -/
def beforeLoop : List (Visit Bool) :=
  [start false, (start false).child (git, .dir true),
    (start false).child ("Makefile".toList, .file ⟨.reg, 120⟩)]

theorem nftw_checkout : nftw checkout eloop false = some (beforeLoop, -1) := by
  decide

/-- What is shown after it, where `stat` fails with `ENOENT` instead. -/
def afterLoop : List (Visit Bool) :=
  [(start false).child ("loop".toList, .unknown ⟨.lnk, 4⟩),
    (start false).child ("README".toList, .file ⟨.reg, 80⟩)]

theorem nftw_checkout_none : nftw checkout .none false = some (beforeLoop ++ afterLoop, 0) := by
  decide

theorem shown_path_checkout :
    ∃ visits ret, nftw checkout eloop false = some (visits, ret) ∧
      ∃ v ∈ visits, v.path = "../.git".toList ∧ Right checkout false v := by
  refine ⟨_, _, nftw_checkout, (start false).child (git, .dir true), by simp [beforeLoop],
    by decide, ?_⟩
  exact shown_path nftw_checkout (by simp [beforeLoop])

/-- **Which directories are shown** by a walk that returns 0, where no directory is called `.git`
here and something else there: those that names lead to without a `.git` on the way. -/
theorem directory_iff (hone : OneName fs root) {visits : List (Visit ι)}
    (h : nftw fs bad root = some (visits, 0)) (i : ι) :
    i ∈ directories visits ↔ ∃ names, Leads fs root names (.dir i) ∧ git ∉ names.dropLast := by
  have hsame : ∀ v w j, (walk fs bad).Reaches (start root) v →
      (walk fs bad).Reaches (start root) w → v.found.directory = some j →
      w.found.directory = some j →
      (walk fs bad).nodes (v.children fs) = (walk fs bad).nodes (w.children fs) := by
    intro v w j hv hw hvj hwj
    rw [Found.directory_eq_some] at hvj hwj
    rw [nodes_children hvj, nodes_children hwj]
    simp only [ne_eq, hone.git_iff hv hw hvj hwj]
  have hmem : i ∈ directories visits ↔
      ∃ v, (walk fs bad).Reaches (start root) v ∧ v.found.directory = some i :=
    (complete_of_zero h).mem_iff hsame i
  rw [hmem]
  constructor
  · rintro ⟨v, hreach, hv⟩
    obtain ⟨names, -, hleads, hgit, -⟩ := (right_start fs root).reaches hreach
    rw [Found.directory_eq_some.1 hv] at hleads
    exact ⟨names, hleads, hgit⟩
  · rintro ⟨names, hleads, hgit⟩
    obtain ⟨v, hreach, hv, -⟩ := exists_reaches bad hleads hgit
    exact ⟨v, hreach, Found.directory_eq_some.2 hv⟩

theorem oneName_checkout : OneName checkout false where
  entries {i j k name name'} h h' := by
    cases i <;> cases j <;> cases k <;> simp_all [checkout]
  root {i name} h := by
    cases i with
    | false =>
      have hname : name = "here".toList := by simpa [checkout] using h
      rw [hname]
      decide
    | true => simp [checkout] at h

theorem directory_iff_checkout :
    OneName checkout false ∧ ∃ visits, nftw checkout .none false = some (visits, 0) ∧
      (true ∈ directories visits ↔
        ∃ names, Leads checkout false names (.dir true) ∧ git ∉ names.dropLast) :=
  ⟨oneName_checkout, _, nftw_checkout_none, directory_iff oneName_checkout nftw_checkout_none true⟩

end Results

end LinuxDemo.FileTreeWalk
