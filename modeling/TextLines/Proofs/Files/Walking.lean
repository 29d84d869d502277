import Mathlib.Data.List.Induction
import TextLines.Files.LookUp
import TextLines.Proofs.Files.Paths

/-!
# Where paths lead

`Tree.walk` goes along a trail. `Tree.Walks` is the same walk from place to place, without the
trails (`Tree.walk_eq_ok_iff`), so that walks in different trees can be compared. A look-up is such
a walk from the root directory or from the working directory (`FileSystem.lookUp_eq_ok_iff`).

A walk along some names and others is a walk along the first, to a directory, and from there along
the others (`Tree.Walks.exists_of_append`). The directories and links of a tree lead to the same
directories in every tree that keeps them (`Tree.Keeps`).
-/

namespace TextLines.Files

open Bytes

namespace Trail

theorem place_cons (name : Bytes) (below : Tree) (above : Trail) :
    place ((name, below) :: above) = above.place ++ [name] := by
  rw [place, List.map_cons, List.reverse_cons, place]

theorem place_tail (trail : Trail) : place trail.tail = trail.place.dropLast := by
  cases trail with
  | nil => rfl
  | cons step above => rw [place_cons, List.dropLast_concat, List.tail_cons]

end Trail

namespace Tree

variable {t t' : Tree} {links : Nat} {trail : Trail} {place : Place} {names : List Bytes}
  {spot : Spot}

/-! ## Walks from place to place -/

/-- The steps `names` lead from a place to a spot. Links are followed, and so many of them may
be. -/
inductive Walks (t : Tree) : Nat → Place → List Bytes → Spot → Prop where
  | arrived {links : Nat} {place : Place} : Walks t links place [] (.found place .directory)
  | here {links : Nat} {place : Place} {rest : List Bytes} {spot : Spot}
      (hrest : Walks t links place rest spot) : Walks t links place ([dot] :: rest) spot
  | up {links : Nat} {place : Place} {rest : List Bytes} {spot : Spot}
      (hrest : Walks t links place.dropLast rest spot) :
      Walks t links place ([dot, dot] :: rest) spot
  | down {links : Nat} {place : Place} {name : Bytes} {rest : List Bytes} {spot : Spot}
      (hname : Path.isDots name = false) (hshort : name.length ≤ maxNameLength)
      (hentry : t.find? (place ++ [name]) = some .directory)
      (hrest : Walks t links (place ++ [name]) rest spot) : Walks t links place (name :: rest) spot
  | link {links : Nat} {place : Place} {name target : Bytes} {rest : List Bytes} {spot : Spot}
      (hname : Path.isDots name = false) (hshort : name.length ≤ maxNameLength)
      (hentry : t.find? (place ++ [name]) = some (.link target))
      (hrest : Walks t links (if Path.isAbsolute target then [] else place)
        (Path.names target ++ rest) spot) : Walks t (links + 1) place (name :: rest) spot
  | vacant {links : Nat} {place : Place} {name : Bytes} (hname : Path.isDots name = false)
      (hshort : name.length ≤ maxNameLength) (hentry : t.find? (place ++ [name]) = none) :
      Walks t links place [name] (.vacant place name)
  | stopped {links : Nat} {place : Place} {name : Bytes} {entry : Entry}
      (hname : Path.isDots name = false) (hshort : name.length ≤ maxNameLength)
      (hentry : t.find? (place ++ [name]) = some entry) (hdirectory : entry ≠ .directory)
      (hlink : ∀ target, entry ≠ .link target) :
      Walks t links place [name] (.found (place ++ [name]) entry)

theorem isDots_eq_false {name : Bytes} (hdot : ¬ (name == [dot]) = true)
    (hdots : ¬ (name == [dot, dot]) = true) : Path.isDots name = false := by
  rw [Path.isDots, eq_false_of_ne_true hdot, eq_false_of_ne_true hdots]
  rfl

/-- A walk is one whether or not a link at its end is followed, unless it stops at one. -/
theorem walks_of_walk {followLast : Bool} (hleads : trail.Leads t)
    (h : t.walk followLast links trail names = .ok spot)
    (hlast : ∀ goal target, spot = .found goal (.link target) → followLast = true) :
    t.Walks links trail.place names spot := by
  have hentry : ∀ {trail : Trail} {name : Bytes} {node : Node}, trail.Leads t →
      (Trail.contents t trail).under name = node → t.find? (trail.place ++ [name]) = node.entry :=
    fun hl hu => (Trail.find?_place_append hl _).trans (congrArg Node.entry hu)
  fun_induction Tree.walk t followLast links trail names generalizing spot
  case case1 =>
    obtain rfl := Except.ok.inj h
    exact .arrived
  case case2 hdot ih =>
    obtain rfl := beq_iff_eq.mp hdot
    exact .here (ih hleads h hlast)
  case case3 hdots ih =>
    obtain rfl := beq_iff_eq.mp hdots
    exact .up (Trail.place_tail _ ▸ ih hleads.tail h hlast)
  case case5 hdot hdots hshort below hunder hrest =>
    obtain rfl := Except.ok.inj h
    obtain rfl := List.isEmpty_iff.mp hrest
    exact .vacant (isDots_eq_false hdot hdots) (Nat.le_of_not_lt hshort) (hentry hleads hunder)
  case case7 hdot hdots hshort below hunder ih =>
    have hrest := ih ⟨hleads, hunder⟩ h hlast
    rw [Trail.place_cons] at hrest
    exact .down (isDots_eq_false hdot hdots) (Nat.le_of_not_lt hshort) (hentry hleads hunder) hrest
  case case8 hstops =>
    rw [hlast _ _ (Except.ok.inj h).symm, Bool.not_true, Bool.and_false] at hstops
    cases hstops
  case case10 hdot hdots hshort target below hunder _ links ih =>
    refine .link (isDots_eq_false hdot hdots) (Nat.le_of_not_lt hshort) (hentry hleads hunder) ?_
    by_cases habsolute : Path.isAbsolute target = true
    · simp only [habsolute, if_true, dif_pos] at ih h ⊢
      exact ih trivial h hlast
    · simp only [habsolute, if_false, dif_neg, Bool.false_eq_true, not_false_eq_true] at ih h ⊢
      exact ih hleads h hlast
  case case11 hdot hdots hshort entry below hdirectory hlink hunder hrest =>
    obtain rfl := Except.ok.inj h
    obtain rfl := List.isEmpty_iff.mp hrest
    exact .stopped (isDots_eq_false hdot hdots) (Nat.le_of_not_lt hshort) (hentry hleads hunder)
      hdirectory hlink
  all_goals cases h

theorem obstacle_mem (entry : Entry) : entry.obstacle ∈ [Errno.notDirectory, .accessDenied] := by
  cases entry <;> simp [Entry.obstacle]

/-- The ways in which a walk can fail. -/
theorem walk_error {followLast : Bool} {errno : Errno}
    (h : t.walk followLast links trail names = .error errno) :
    errno ∈ [Errno.noEntry, .notDirectory, .accessDenied, .nameTooLong, .linkLoop] := by
  fun_induction Tree.walk t followLast links trail names
  case case2 ih | case3 ih | case7 ih => exact ih h
  case case10 ih =>
    split at ih
    · rw [if_pos ‹_›] at h
      exact ih h
    · rw [if_neg ‹_›] at h
      exact ih h
  case case4 | case6 | case9 =>
    obtain rfl := Except.error.inj h
    decide
  case case12 entry _ _ _ _ _ =>
    obtain rfl := Except.error.inj h
    exact (show [Errno.notDirectory, .accessDenied] ⊆ _ by decide) (obstacle_mem entry)
  all_goals cases h

/-- How a walk goes on at a name that is not made of dots. -/
theorem walk_name {name : Bytes} (hname : Path.isDots name = false)
    (hshort : name.length ≤ maxNameLength) (links : Nat) (trail : Trail) (rest : List Bytes) :
    t.walk true links trail (name :: rest) =
      match (Trail.contents t trail).under name with
      | ⟨none, _⟩ => if rest.isEmpty then .ok (.vacant trail.place name) else .error .noEntry
      | ⟨some .directory, below⟩ => t.walk true links ((name, below) :: trail) rest
      | ⟨some (.link target), _⟩ =>
        match links with
        | 0 => .error .linkLoop
        | links + 1 =>
          t.walk true links (if Path.isAbsolute target then [] else trail)
            (Path.names target ++ rest)
      | ⟨some entry, _⟩ =>
        if rest.isEmpty then .ok (.found (trail.place ++ [name]) entry)
        else .error entry.obstacle := by
  obtain ⟨hdot, hdots⟩ := Bool.or_eq_false_iff.mp hname
  rw [walk, hdot, hdots, if_neg Bool.false_ne_true, if_neg Bool.false_ne_true,
    if_neg (Nat.not_lt.mpr hshort)]
  obtain ⟨_ | entry, below⟩ := (Trail.contents t trail).under name
  · rfl
  · cases entry with
    | link target =>
      rw [Bool.not_true, Bool.and_false]
      cases links <;> rfl
    | _ => rfl

theorem exists_under {name : Bytes} {entry : Option Entry} (hleads : trail.Leads t)
    (hentry : t.find? (trail.place ++ [name]) = entry) :
    ∃ below, (Trail.contents t trail).under name = ⟨entry, below⟩ := by
  rw [Trail.find?_place_append hleads] at hentry
  subst hentry
  exact ⟨_, rfl⟩

theorem walk_of_walks (h : t.Walks links place names spot) (hleads : trail.Leads t)
    (hplace : trail.place = place) : t.walk true links trail names = .ok spot := by
  induction h generalizing trail with
  | arrived =>
    rw [walk, hplace]
  | here hrest ih =>
    rw [walk, if_pos (beq_self_eq_true _), ih hleads hplace]
  | up hrest ih =>
    rw [walk, if_neg (by decide), if_pos (beq_self_eq_true _),
      ih hleads.tail ((Trail.place_tail trail).trans (congrArg _ hplace))]
  | @down links place name rest spot hname hshort hentry hrest ih =>
    obtain ⟨below, hunder⟩ := exists_under hleads (hplace ▸ hentry)
    have hnext : Trail.Leads t ((name, below) :: trail) := ⟨hleads, hunder⟩
    rw [walk_name hname hshort, hunder]
    exact ih hnext (by rw [Trail.place_cons, hplace])
  | @link links place name target rest spot hname hshort hentry hrest ih =>
    obtain ⟨below, hunder⟩ := exists_under hleads (hplace ▸ hentry)
    rw [walk_name hname hshort, hunder]
    dsimp only
    split at ih
    · rw [if_pos ‹_›]
      exact ih trivial rfl
    · rw [if_neg ‹_›]
      exact ih hleads hplace
  | vacant hname hshort hentry =>
    obtain ⟨below, hunder⟩ := exists_under hleads (hplace ▸ hentry)
    rw [walk_name hname hshort, hunder, hplace]
    rfl
  | @stopped links place name entry hname hshort hentry hdirectory hlink =>
    obtain ⟨below, hunder⟩ := exists_under hleads (hplace ▸ hentry)
    rw [walk_name hname hshort, hunder, hplace]
    cases entry with
    | directory => exact absurd rfl hdirectory
    | link target => exact absurd rfl (hlink target)
    | _ => rfl

/-- A walk along a trail is a walk from the place of the trail. -/
theorem walk_eq_ok_iff (hleads : trail.Leads t) :
    t.walk true links trail names = .ok spot ↔ t.Walks links trail.place names spot :=
  ⟨fun h => walks_of_walk hleads h fun _ _ _ => rfl, fun h => walk_of_walks h hleads rfl⟩

/-! ## Walks along some names and others -/

/-- A walk along names with others behind them comes to a directory where the others begin. -/
theorem Walks.exists_of_append {front back : List Bytes}
    (h : t.Walks links place (front ++ back) spot) (hne : back ≠ []) :
    ∃ (links' : Nat) (place' : Place), t.Walks links place front (.found place' .directory) ∧
      t.Walks links' place' back spot := by
  generalize hnames : front ++ back = names at h
  induction h generalizing front with
  | arrived => exact absurd hnames (List.append_ne_nil_of_right_ne_nil _ hne)
  | @here links place rest spot hrest ih =>
    rcases List.append_eq_cons_iff.mp hnames with ⟨rfl, rfl⟩ | ⟨front, rfl, rfl⟩
    · exact ⟨links, place, .arrived, .here hrest⟩
    · obtain ⟨links', place', hfront, hback⟩ := ih rfl
      exact ⟨links', place', .here hfront, hback⟩
  | @up links place rest spot hrest ih =>
    rcases List.append_eq_cons_iff.mp hnames with ⟨rfl, rfl⟩ | ⟨front, rfl, rfl⟩
    · exact ⟨links, place, .arrived, .up hrest⟩
    · obtain ⟨links', place', hfront, hback⟩ := ih rfl
      exact ⟨links', place', .up hfront, hback⟩
  | @down links place name rest spot hname hshort hentry hrest ih =>
    rcases List.append_eq_cons_iff.mp hnames with ⟨rfl, rfl⟩ | ⟨front, rfl, rfl⟩
    · exact ⟨links, place, .arrived, .down hname hshort hentry hrest⟩
    · obtain ⟨links', place', hfront, hback⟩ := ih rfl
      exact ⟨links', place', .down hname hshort hentry hfront, hback⟩
  | @link links place name target rest spot hname hshort hentry hrest ih =>
    rcases List.append_eq_cons_iff.mp hnames with ⟨rfl, rfl⟩ | ⟨front, rfl, rfl⟩
    · exact ⟨links + 1, place, .arrived, .link hname hshort hentry hrest⟩
    · obtain ⟨links', place', hfront, hback⟩ := ih (List.append_assoc _ _ _)
      exact ⟨links', place', .link hname hshort hentry hfront, hback⟩
  | @vacant links place name hname hshort hentry =>
    rcases List.append_eq_cons_iff.mp hnames with ⟨rfl, rfl⟩ | ⟨front, rfl, hnil⟩
    · exact ⟨links, place, .arrived, .vacant hname hshort hentry⟩
    · exact absurd hnil.symm (List.append_ne_nil_of_right_ne_nil _ hne)
  | @stopped links place name entry hname hshort hentry hdirectory hlink =>
    rcases List.append_eq_cons_iff.mp hnames with ⟨rfl, rfl⟩ | ⟨front, rfl, hnil⟩
    · exact ⟨links, place, .arrived, .stopped hname hshort hentry hdirectory hlink⟩
    · exact absurd hnil.symm (List.append_ne_nil_of_right_ne_nil _ hne)

/-- A last step to the directory itself makes no difference behind a directory. -/
theorem Walks.append_dot {goal : Place} (h : t.Walks links place names (.found goal .directory)) :
    t.Walks links place (names ++ [[dot]]) (.found goal .directory) := by
  generalize hspot : Spot.found goal .directory = spot at h ⊢
  induction h with
  | arrived => exact .here .arrived
  | here _ ih => exact .here (ih hspot)
  | up _ ih => exact .up (ih hspot)
  | down hname hshort hentry _ ih => exact .down hname hshort hentry (ih hspot)
  | link hname hshort hentry _ ih =>
    have hrest := ih hspot
    rw [List.append_assoc] at hrest
    exact .link hname hshort hentry hrest
  | vacant => cases hspot
  | stopped _ _ _ hdirectory => exact absurd (Spot.found.inj hspot).2.symm hdirectory

/-! ## Trees that keep their directories -/

/-- The directories and links of one tree stand in the other. -/
structure Keeps (t t' : Tree) : Prop where
  directory : ∀ place, t.find? place = some .directory → t'.find? place = some .directory
  link : ∀ place target, t.find? place = some (.link target) → t'.find? place = some (.link target)

/-- A walk to something that is there comes to it as long as it is kept with the directories and
links. -/
theorem Walks.keep {goal : Place} {entry : Entry}
    (h : t.Walks links place names (.found goal entry)) (hkeeps : t.Keeps t')
    (hgoal : t'.find? goal = some entry) : t'.Walks links place names (.found goal entry) := by
  generalize hspot : Spot.found goal entry = spot at h ⊢
  induction h with
  | arrived => exact .arrived
  | here _ ih => exact .here (ih hspot)
  | up _ ih => exact .up (ih hspot)
  | down hname hshort hentry _ ih =>
    exact .down hname hshort (hkeeps.directory _ hentry) (ih hspot)
  | link hname hshort hentry _ ih =>
    exact .link hname hshort (hkeeps.link _ _ hentry) (ih hspot)
  | vacant => cases hspot
  | stopped hname hshort _ hdirectory hlink =>
    obtain ⟨rfl, rfl⟩ := Spot.found.inj hspot
    exact .stopped hname hshort hgoal hdirectory hlink

/-! ## Where walks begin -/

theorem trail?_append_singleton (t : Tree) (place : Place) (name : Bytes) :
    t.trail? (place ++ [name]) = (t.trail? place).bind fun trail =>
      match (Trail.contents t trail).under name with
      | ⟨some .directory, below⟩ => some ((name, below) :: trail)
      | _ => none := by
  rw [trail?, trail?, List.foldlM_append]
  simp only [List.foldlM_cons, List.foldlM_nil, bind_pure]
  rfl

theorem place_of_trail? (h : t.trail? place = some trail) : trail.place = place := by
  induction place using List.reverseRecOn generalizing trail with
  | nil =>
    obtain rfl := Option.some.inj h
    rfl
  | append_singleton place name ih =>
    rw [trail?_append_singleton, Option.bind_eq_some_iff] at h
    obtain ⟨above, habove, h⟩ := h
    split at h
    · obtain rfl := Option.some.inj h
      rw [Trail.place_cons, ih habove]
    · cases h

/-- A trail leads to a place if the place and all above it are directories. -/
theorem exists_trail_iff : (∃ trail, t.trail? place = some trail) ↔
    ∀ front, front <+: place → t.find? front = some .directory := by
  induction place using List.reverseRecOn with
  | nil =>
    refine ⟨fun _ front hfront => ?_, fun _ => ⟨[], rfl⟩⟩
    rw [List.prefix_nil.mp hfront, find?_nil]
  | append_singleton place name ih =>
    constructor
    · rintro ⟨trail, htrail⟩ front hfront
      rcases List.prefix_concat_iff.mp hfront with rfl | hfront
      · rw [← place_of_trail? htrail]
        exact Trail.find?_place (leads_of_trail? htrail)
      · rw [trail?_append_singleton, Option.bind_eq_some_iff] at htrail
        obtain ⟨above, habove, -⟩ := htrail
        exact ih.mp ⟨above, habove⟩ front hfront
    · intro h
      obtain ⟨above, habove⟩ := ih.mpr fun front hfront =>
        h front (hfront.trans (List.prefix_append place [name]))
      obtain ⟨below, hunder⟩ := exists_under (leads_of_trail? habove)
        ((place_of_trail? habove).symm ▸ h _ (List.prefix_refl _))
      refine ⟨(name, below) :: above, ?_⟩
      rw [trail?_append_singleton, habove, Option.bind_some, hunder]

end Tree

/-! ## Looking paths up -/

namespace FileSystem

variable {fs fs' : FileSystem} {path : Bytes} {spot : Spot}

/-- Where the look-up of a path begins. -/
def startOf (fs : FileSystem) (path : Bytes) : Place :=
  if Path.isAbsolute path then [] else fs.workingDirectory

/-- A look-up is a walk along the names of a path that is not too long. -/
theorem lookUp_eq_ok_iff (h0 : 0 ∉ path) :
    fs.lookUp path true = .ok spot ↔
      path ≠ [] ∧ path.length < maxPathLength ∧
        (∀ front, front <+: fs.startOf path → fs.tree.find? front = some .directory) ∧
        fs.tree.Walks maxLinks (fs.startOf path) (Path.names path) spot := by
  rw [← Tree.exists_trail_iff, lookUp, Path.untilNul_of_notMem h0]
  by_cases hnil : path = []
  · subst hnil
    exact ⟨fun h => (by cases h), fun h => absurd rfl h.1⟩
  rw [List.isEmpty_eq_false_iff.mpr hnil, if_neg Bool.false_ne_true]
  by_cases hlong : maxPathLength ≤ path.length
  · rw [if_pos hlong]
    exact ⟨fun h => (by cases h), fun h => absurd hlong (Nat.not_le.mpr h.2.1)⟩
  rw [if_neg hlong]
  rw [show (if Path.isAbsolute path then [] else fs.workingDirectory) = fs.startOf path from rfl]
  rcases htrail : fs.tree.trail? (fs.startOf path) with _ | trail
  · simp
  · dsimp only
    rw [Tree.walk_eq_ok_iff (Tree.leads_of_trail? htrail), Tree.place_of_trail? htrail]
    exact ⟨fun h => ⟨hnil, Nat.lt_of_not_le hlong, ⟨trail, rfl⟩, h⟩, fun h => h.2.2.2⟩

/-- The system sees no zero byte of a path and nothing behind it. -/
theorem lookUp_untilNul (fs : FileSystem) (path : Bytes) (followLast : Bool) :
    fs.lookUp (untilNul path) followLast = fs.lookUp path followLast := by
  rw [lookUp, Path.untilNul_of_notMem (Path.zero_notMem_untilNul path)]
  rfl

/-- A free name is where a path leads, whether or not links at the end are followed. -/
theorem lookUp_vacant {directory : Place} {name : Bytes}
    (h : fs.lookUp path false = .ok (.vacant directory name)) :
    fs.lookUp path true = .ok (.vacant directory name) := by
  rw [lookUp] at h ⊢
  split at h
  · cases h
  · rw [if_neg ‹_›]
    split at h
    · cases h
    · rw [if_neg ‹_›]
      rcases htrail : fs.tree.trail?
        (if Path.isAbsolute (untilNul path) then [] else fs.workingDirectory) with _ | trail
      · rw [htrail] at h
        cases h
      · rw [htrail] at h
        have hleads := Tree.leads_of_trail? htrail
        exact Tree.walk_of_walks (Tree.walks_of_walk hleads h fun _ _ hlink => by cases hlink)
          hleads rfl

/-- What keeps a path from being looked up. -/
theorem lookUp_error {followLast : Bool} {errno : Errno}
    (h : fs.lookUp path followLast = .error errno) :
    errno ∈ [Errno.noEntry, .notDirectory, .accessDenied, .nameTooLong, .linkLoop] := by
  rw [lookUp] at h
  split at h
  · obtain rfl := Except.error.inj h
    decide
  · split at h
    · obtain rfl := Except.error.inj h
      decide
    · split at h
      · exact Tree.walk_error h
      · obtain rfl := Except.error.inj h
        decide

/-- A look-up that is an error of its own goes through a directory that may not be entered, through
a name or a path that is too long, or through too many links. -/
theorem status_error {errno : Errno} (h : fs.status path = .error errno) :
    errno = .accessDenied ∨ errno = .nameTooLong ∨ errno = .linkLoop := by
  rw [status] at h
  split at h
  · cases h
  · cases h
  · cases h
  · cases h
  · rename_i e hnone hdirectory hlook
    obtain rfl := Except.error.inj h
    have hcases := lookUp_error hlook
    simp only [List.mem_cons, List.not_mem_nil, or_false] at hcases
    rcases hcases with rfl | rfl | hcases
    · exact absurd rfl hnone
    · exact absurd rfl hdirectory
    · exact hcases

end FileSystem

end TextLines.Files
