import Dialplan.Folder
/-!
# Writing a file

What a write leaves of a folder: the file stands at its place, every folder is a folder still, and a
walk leads where it led before.

* `lookup_putMember_self`, `lookup_putMember_of_ne`: the members after one of them was put;
* `at?_append`: a place below another;
* `at?_put?_self`: what was written is what stands there;
* `at?_put?_of_not_prefix`: what stands at a place that the written one does not lie below stays;
* `isFolderAt_put?`: a write makes no folder and takes none away, so `resolve?_put?`: every walk
  leads to the same place;
* `exists_put?_of_file`, `exists_put?_of_free`: a file that is there can be written anew, and one
  that is not there in any folder that is;
* `makeFolders?_of_folder`: a folder that is there need not be made;
* `isFolderAt_makeFolders?`, `at?_makeFolders?`: making a folder makes it, and leaves what is in it.
-/

namespace Dialplan.Entry

/-! ## 1. Members -/

theorem lookup_putMember_self (name : String) (e : Entry) : ∀ members : List (String × Entry),
    (putMember name e members).lookup name = some e
  | [] => by simp [putMember]
  | (n, old) :: rest => by
      by_cases h : n = name
      · simp [putMember, h]
      · have hne : (name == n) = false := by simpa using fun e => h e.symm
        simp [putMember, h, List.lookup_cons, hne, lookup_putMember_self name e rest]

theorem lookup_putMember_of_ne {name other : String} (h : other ≠ name) (e : Entry) :
    ∀ members : List (String × Entry),
      (putMember name e members).lookup other = members.lookup other
  | [] => by simp [putMember, h]
  | (n, old) :: rest => by
      by_cases hn : n = name
      · have hne : (other == name) = false := by simpa using h
        subst hn
        simp [putMember, List.lookup_cons, hne]
      · simp [putMember, hn, List.lookup_cons, lookup_putMember_of_ne h e rest]

/-- A member that is put where it stands changes nothing. -/
theorem putMember_of_lookup {name : String} {e : Entry} : ∀ {members : List (String × Entry)},
    members.lookup name = some e → putMember name e members = members
  | [], h => by cases h
  | (n, old) :: rest, h => by
      by_cases hn : n = name
      · subst hn
        rw [List.lookup_cons_self] at h
        cases h
        simp [putMember]
      · have hne : (name == n) = false := beq_eq_false_iff_ne.mpr fun e => hn e.symm
        rw [List.lookup_cons, hne] at h
        simp [putMember, hn, putMember_of_lookup h]

/-! ## 2. What stands at a place after a write -/

/-- What stands below a place is looked for in what stands there. -/
theorem at?_append (rest : List String) : ∀ (place : List String) (e : Entry),
    e.at? (place ++ rest) = (e.at? place).bind fun below => below.at? rest
  | [], _ => rfl
  | _ :: _, .file _ => rfl
  | name :: place, .folder members => by
      cases h : members.lookup name with
      | none => simp [at?, h]
      | some e => simp [at?, h, at?_append rest place e]

/-- **What was written stands at its place.** -/
theorem at?_put?_self {content : String} : ∀ {place : List String} {e e' : Entry},
    put? content e place = some e' → e'.at? place = some (.file content)
  | [], .file _, _, h => by
      cases h
      rfl
  | [], .folder _, _, h => by cases h
  | _ :: _, .file _, _, h => by cases h
  | name :: rest, .folder members, e', h => by
      unfold put? at h
      split at h
      · rename_i e hm
        obtain ⟨x, hx, rfl⟩ := Option.map_eq_some_iff.mp h
        have ih := at?_put?_self hx
        simp [at?, lookup_putMember_self, ih]
      · split at h
        · rename_i hr
          obtain rfl := List.isEmpty_iff.mp hr
          cases h
          simp [at?, lookup_putMember_self]
        · cases h

/-- **What stands at any other place stays**, but for the folders on the way to the written one. -/
theorem at?_put?_of_not_prefix {content : String} : ∀ {place other : List String} {e e' : Entry},
    put? content e place = some e' → ¬ other <+: place → e'.at? other = e.at? other
  | [], [], _, _, _, ho => absurd List.prefix_rfl ho
  | [], _ :: _, .file _, _, h, _ => by
      cases h
      rfl
  | [], _, .folder _, _, h, _ => by cases h
  | _ :: _, _, .file _, _, h, _ => by cases h
  | _ :: _, [], .folder _, _, _, ho => absurd (List.nil_prefix) ho
  | name :: rest, step :: others, .folder members, e', h, ho => by
      unfold put? at h
      split at h
      · rename_i e hm
        obtain ⟨x, hx, rfl⟩ := Option.map_eq_some_iff.mp h
        unfold at?
        by_cases hs : step = name
        · subst hs
          have ho' : ¬ others <+: rest := fun hp => ho (List.cons_prefix_cons.mpr ⟨rfl, hp⟩)
          simp only [lookup_putMember_self, hm, at?_put?_of_not_prefix hx ho']
        · rw [lookup_putMember_of_ne hs]
      · rename_i hm
        split at h
        · rename_i hr
          cases h
          unfold at?
          by_cases hs : step = name
          · subst hs
            -- nothing stood there, and below a file nothing stands
            cases others with
            | nil => exact absurd (List.cons_prefix_cons.mpr ⟨rfl, List.nil_prefix⟩) ho
            | cons s others => simp only [lookup_putMember_self, hm, at?]
          · rw [lookup_putMember_of_ne hs]
        · cases h

/-- Whether a folder stands at a place. -/
def isFolderAt (e : Entry) (place : List String) : Bool :=
  match e.at? place with
  | some (.folder _) => true
  | _ => false

theorem isFolderAt_cons (members : List (String × Entry)) (name : String) (rest : List String) :
    (Entry.folder members).isFolderAt (name :: rest) =
      ((members.lookup name).map fun e => e.isFolderAt rest).getD false := by
  unfold isFolderAt
  cases h : members.lookup name with
  | none => simp [at?, h]
  | some e => simp [at?, h]

theorem isFolderAt_cons_iff {members : List (String × Entry)} {name : String}
    {rest : List String} : (Entry.folder members).isFolderAt (name :: rest) = true ↔
      ∃ e, members.lookup name = some e ∧ e.isFolderAt rest = true := by
  rw [isFolderAt_cons]
  cases members.lookup name <;> simp

/-- **A write makes no folder and takes none away.** -/
theorem isFolderAt_put? {content : String} : ∀ {place : List String} {e e' : Entry},
    put? content e place = some e' → ∀ other, e'.isFolderAt other = e.isFolderAt other
  | [], .file _, _, h, other => by
      cases h
      cases other <;> rfl
  | [], .folder _, _, h, _ => by cases h
  | _ :: _, .file _, _, h, _ => by cases h
  | name :: rest, .folder members, e', h, other => by
      unfold put? at h
      split at h
      · rename_i e hm
        obtain ⟨x, hx, rfl⟩ := Option.map_eq_some_iff.mp h
        cases other with
        | nil => rfl
        | cons step others =>
          rw [isFolderAt_cons, isFolderAt_cons]
          by_cases hs : step = name
          · subst hs
            have ih := isFolderAt_put? hx others
            simp [lookup_putMember_self, hm, ih]
          · rw [lookup_putMember_of_ne hs]
      · rename_i hm
        split at h
        · cases h
          cases other with
          | nil => rfl
          | cons step others =>
            rw [isFolderAt_cons, isFolderAt_cons]
            by_cases hs : step = name
            · subst hs
              -- what was not there before is a file now, at its place and nowhere below
              rw [lookup_putMember_self, hm]
              cases others <;> rfl
            · rw [lookup_putMember_of_ne hs]
        · cases h

/-- A file that is there can be written anew. -/
theorem exists_put?_of_file {old : String} (content : String) :
    ∀ {place : List String} {e : Entry}, e.at? place = some (.file old) →
      ∃ e', put? content e place = some e'
  | [], .file _, _ => ⟨_, rfl⟩
  | [], .folder _, h => by cases h
  | _ :: _, .file _, h => by cases h
  | name :: rest, .folder members, h => by
      unfold at? at h
      split at h
      · rename_i e hm
        obtain ⟨x, hx⟩ := exists_put?_of_file content h
        exact ⟨.folder (putMember name x members), by simp [put?, hm, hx]⟩
      · cases h

/-- A file can be written in any folder where nothing has its name. -/
theorem exists_put?_of_free (content name : String) :
    ∀ {place : List String} {e : Entry}, e.isFolderAt place = true →
      e.at? (place ++ [name]) = none → ∃ e', put? content e (place ++ [name]) = some e'
  | [], .file _, hf, _ => by cases hf
  | [], .folder members, _, hn => by
      cases hm : members.lookup name with
      | none => exact ⟨_, by simp [put?, hm]; rfl⟩
      | some e => simp [at?, hm] at hn
  | _ :: _, .file _, hf, _ => by cases hf
  | step :: rest, .folder members, hf, hn => by
      obtain ⟨e, hm, he⟩ := isFolderAt_cons_iff.mp hf
      have hn' : e.at? (rest ++ [name]) = none := by
        simpa [at?, hm] using hn
      obtain ⟨x, hx⟩ := exists_put?_of_free content name he hn'
      exact ⟨.folder (putMember step x members), by simp [put?, hm, hx]⟩

/-- A folder that is there need not be made. -/
theorem makeFolders?_of_folder : ∀ {place : List String} {e : Entry},
    e.isFolderAt place = true → e.makeFolders? place = some e
  | [], .file _, h => by cases h
  | [], .folder _, _ => rfl
  | _ :: _, .file _, h => by cases h
  | name :: rest, .folder members, h => by
      obtain ⟨e, hm, he⟩ := isFolderAt_cons_iff.mp h
      have ih : e.makeFolders? rest = some e := makeFolders?_of_folder he
      simp [makeFolders?, hm, ih, putMember_of_lookup hm]

/-- Where a folder stands no file can be written. -/
theorem put?_of_folder (content : String) : ∀ {place : List String} {e : Entry},
    e.isFolderAt place = true → put? content e place = none
  | [], .file _, h => by cases h
  | [], .folder _, _ => rfl
  | _ :: _, .file _, h => by cases h
  | name :: rest, .folder members, h => by
      obtain ⟨e, hm, he⟩ := isFolderAt_cons_iff.mp h
      simp [put?, hm, put?_of_folder content he]

/-! ## 3. Folders that are made -/

/-- **A folder stands where one was made.** -/
theorem isFolderAt_makeFolders? : ∀ {place : List String} {e e' : Entry},
    e.makeFolders? place = some e' → e'.isFolderAt place = true
  | [], .file _, _, h => by cases h
  | _ :: _, .file _, _, h => by cases h
  | [], .folder _, _, h => by
      cases h
      rfl
  | name :: rest, .folder members, e', h => by
      unfold makeFolders? at h
      split at h
      all_goals
        obtain ⟨x, hx, rfl⟩ := Option.map_eq_some_iff.mp h
        exact isFolderAt_cons_iff.mpr
          ⟨x, lookup_putMember_self name x members, isFolderAt_makeFolders? hx⟩

/-- **What is in a folder stays as it is when the folder is made**, and a new one is empty. -/
theorem at?_makeFolders? (name : String) : ∀ {place : List String} {e e' : Entry},
    e.makeFolders? place = some e' → e'.at? (place ++ [name]) = e.at? (place ++ [name])
  | [], .file _, _, h => by cases h
  | _ :: _, .file _, _, h => by cases h
  | [], .folder _, _, h => by
      cases h
      rfl
  | step :: rest, .folder members, e', h => by
      unfold makeFolders? at h
      split at h
      · rename_i e hm
        obtain ⟨x, hx, rfl⟩ := Option.map_eq_some_iff.mp h
        simp [at?, lookup_putMember_self, hm, at?_makeFolders? name hx]
      · rename_i hm
        obtain ⟨x, hx, rfl⟩ := Option.map_eq_some_iff.mp h
        have hempty : (Entry.folder []).at? (rest ++ [name]) = none := by
          cases rest <;> rfl
        simp [at?, lookup_putMember_self, hm, at?_makeFolders? name hx, hempty]

/-! ## 4. Walks -/

/-- A step is taken where a folder stands. -/
theorem resolve?_cons (e : Entry) (here : List String) (step : String) (rest : List String) :
    e.resolve? here (step :: rest) =
      if e.isFolderAt here then
        if step = "." then e.resolve? here rest
        else if step = ".." then if here.isEmpty then none else e.resolve? here.dropLast rest
        else e.resolve? (here ++ [step]) rest
      else none := by
  unfold isFolderAt
  rw [resolve?]
  cases e.at? here with
  | none => rfl
  | some reached => cases reached <;> simp

/-- **After a write every walk leads where it led before.** -/
theorem resolve?_put? {content : String} {place : List String} {e e' : Entry}
    (h : put? content e place = some e') :
    ∀ (steps here : List String), e'.resolve? here steps = e.resolve? here steps
  | [], _ => rfl
  | step :: rest, here => by
      rw [resolve?_cons, resolve?_cons, isFolderAt_put? h here]
      simp only [resolve?_put? h rest]

end Dialplan.Entry
