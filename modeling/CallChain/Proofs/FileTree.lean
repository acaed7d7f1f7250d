import CallChain.FileTree
import CallChain.Proofs.Path

/-!
# Files and what a write changes

A name that is joined to the path of a directory leads to the place below that directory. A write to a
file that is there changes the content at one place; all directories stay, and so does where paths lead.
-/
namespace CallChain.FileTree

variable {t t' : FileTree} {p : Path} {place : Place} {text : String} {locked : List Place}

/-- All places are made of names. -/
def Named (t : FileTree) : Prop := ∀ e ∈ t.entries, ∀ s ∈ e.1, Path.IsName s

instance (t : FileTree) : Decidable t.Named :=
  inferInstanceAs (Decidable (∀ e ∈ t.entries, ∀ s ∈ e.1, Path.IsName s))

theorem follow_append (t : FileTree) (place : Place) (cs ds : List Path.Component) :
    t.follow place (cs ++ ds) = (t.follow place cs).bind (t.follow · ds) := by
  induction cs generalizing place with
  | nil => rfl
  | cons c cs ih =>
    simp only [List.cons_append, follow]
    by_cases hd : t.isDirectoryAt place = true
    · rw [if_pos hd, if_pos hd]
      cases c <;> exact ih _
    · rw [if_neg hd, if_neg hd]
      rfl

theorem follow_of_resolve (h : t.resolve p = some place) : t.follow [] p.components = some place := by
  obtain ⟨q, hq, hguard⟩ := Option.bind_eq_some_iff.mp h
  obtain ⟨-, -, hpure⟩ := Option.bind_eq_some_iff.mp hguard
  obtain rfl : q = place := Option.some.inj hpure
  exact hq

theorem endsAsDirectory_join {s : String} (hs : Path.IsName s) (p : Path) :
    endsAsDirectory (p.join ⟨s⟩) = false := by
  obtain ⟨before, htext⟩ : ∃ before, (p.join ⟨s⟩).text.toList = before ++ s.toList := by
    rcases Path.text_join hs p with ⟨-, htext⟩ | ⟨cs, -, -, htext⟩
    · exact ⟨[], htext⟩
    · exact ⟨cs ++ ['/'], by rw [htext, List.append_assoc]; rfl⟩
  obtain ⟨hne, hslash, hdot, -⟩ := hs
  rw [endsAsDirectory, htext, List.reverse_append]
  have hlast : ∀ c ∈ s.toList.reverse, c ≠ '/' := by
    intro c hc he
    exact hslash (he ▸ List.mem_reverse.mp hc)
  have hsingle : s.toList.reverse ≠ ['.'] := fun he => hdot (by simpa using congrArg List.reverse he)
  have hne' : s.toList.reverse ≠ [] := by simpa using hne
  generalize s.toList.reverse = reversed at hlast hsingle hne'
  rcases reversed with _ | ⟨c, _ | ⟨d, rest⟩⟩
  · exact absurd rfl hne'
  · have hc := hlast c List.mem_cons_self
    have hcdot : c ≠ '.' := fun he => hsingle (by rw [he])
    simp [hc, hcdot]
  · have hc := hlast c List.mem_cons_self
    have hd := hlast d (List.mem_cons_of_mem c List.mem_cons_self)
    simp [hc, hd]

/-- A name joined to the path of a directory leads below the directory. -/
theorem follow_join {s : String} (hs : Path.IsName s) (hp : t.follow [] p.components = some place)
    (hd : t.isDirectoryAt place = true) :
    t.follow [] (p.join ⟨s⟩).components = some (place ++ [s]) := by
  rw [Path.components_join hs, follow_append, hp, Option.bind_some, follow, if_pos hd]
  rfl

theorem resolve_join {s : String} (hs : Path.IsName s) (hp : t.follow [] p.components = some place)
    (hd : t.isDirectoryAt place = true) : t.resolve (p.join ⟨s⟩) = some (place ++ [s]) := by
  rw [resolve, follow_join hs hp hd, endsAsDirectory_join hs]
  rfl

/-- The same places are directories. -/
def SameFolders (t t' : FileTree) : Prop := ∀ place, t'.isDirectoryAt place = t.isDirectoryAt place

theorem follow_of_sameFolders (h : SameFolders t t') (place : Place) (cs : List Path.Component) :
    t'.follow place cs = t.follow place cs := by
  induction cs generalizing place with
  | nil => rfl
  | cons c cs ih => simp only [follow, h place, ih]

theorem resolve_of_sameFolders (h : SameFolders t t') (p : Path) : t'.resolve p = t.resolve p := by
  simp only [resolve, follow_of_sameFolders h, h _]

theorem lookup_putFile (place q : Place) (text : String) (entries : List (Place × FileEntry)) :
    (putFile place text entries).lookup q =
      if q = place then some (.file (.text text)) else entries.lookup q := by
  by_cases hq : q = place
  · subst hq
    rw [if_pos rfl]
    fun_induction putFile q text entries with
    | case1 => simp
    | case2 => simp
    | case3 r e entries hne ih => rw [List.lookup_cons, beq_false_of_ne (Ne.symm hne)]; exact ih
  · rw [if_neg hq]
    fun_induction putFile place text entries with
    | case1 => simp [hq]
    | case2 e entries => simp [List.lookup_cons, beq_false_of_ne hq]
    | case3 r e entries hne ih => rw [List.lookup_cons, List.lookup_cons, ih]

/-- A file that is there is replaced where it stands. -/
theorem keys_putFile {entries : List (Place × FileEntry)} {e : FileEntry}
    (h : entries.lookup place = some e) :
    (putFile place text entries).map (·.1) = entries.map (·.1) := by
  fun_induction putFile place text entries with
  | case1 => cases h
  | case2 => rfl
  | case3 r e' entries hne ih =>
    rw [List.lookup_cons, beq_false_of_ne (Ne.symm hne)] at h
    rw [List.map_cons, List.map_cons, ih h]

theorem write?_eq_some_iff : t.write? p text locked = some t' ↔
    ∃ place, t.resolve p = some place ∧ t.isDirectoryAt place = false ∧ place ∉ locked ∧
      t' = ⟨putFile place text t.entries⟩ := by
  constructor
  · intro h
    obtain ⟨place, hp, h⟩ := Option.bind_eq_some_iff.mp h
    obtain ⟨_, hguard, h⟩ := Option.bind_eq_some_iff.mp h
    rw [guard] at hguard
    split at hguard
    · next hfree =>
      rw [Bool.and_eq_true, Bool.not_eq_true', Bool.not_eq_true', ← Bool.not_eq_true
        (locked.contains place), List.contains_iff_mem] at hfree
      exact ⟨place, hp, hfree.1, hfree.2, (Option.some.inj h).symm⟩
    · cases hguard
  · rintro ⟨place, hp, hdirectory, hlocked, rfl⟩
    have hcontains : locked.contains place = false := by
      rw [← Bool.not_eq_true, List.contains_iff_mem]
      exact hlocked
    rw [write?, hp]
    simp only [Option.bind_eq_bind, Option.bind_some, hdirectory, hcontains]
    rfl

theorem readText?_eq_some_iff : t.readText? p = some text ↔
    ∃ place, t.resolve p = some place ∧ t.content? place = some (.text text) := by
  rw [readText?, Option.bind_eq_some_iff]
  constructor
  · rintro ⟨content, hcontent, htext⟩
    obtain ⟨place, hp, hplace⟩ := Option.bind_eq_some_iff.mp hcontent
    cases content with
    | text s => exact ⟨place, hp, by rw [hplace, Option.some.inj htext]⟩
    | bytes bs => cases htext
  · rintro ⟨place, hp, hplace⟩
    exact ⟨.text text, by rw [hp, Option.bind_some, hplace], rfl⟩

/-- A path leads to the same text as long as the content at its place is kept. -/
theorem readText?_of_sameFolders (h : SameFolders t t')
    (hkept : ∀ place, t.resolve p = some place → t'.content? place = t.content? place) :
    t'.readText? p = t.readText? p := by
  rw [readText?, readText?, resolve_of_sameFolders h]
  cases hp : t.resolve p with
  | none => rfl
  | some place => rw [Option.bind_some, Option.bind_some, hkept place hp]

theorem write?_eq_none_of_sameFolders (h : SameFolders t t') (hnone : t'.write? p text locked = none) :
    t.write? p text locked = none := by
  rw [Option.eq_none_iff_forall_ne_some] at hnone ⊢
  intro written hwritten
  obtain ⟨place, hp, hd, hlocked, -⟩ := write?_eq_some_iff.mp hwritten
  exact hnone _ (write?_eq_some_iff.mpr
    ⟨place, by rw [resolve_of_sameFolders h, hp], by rw [h place, hd], hlocked, rfl⟩)

theorem find?_of_content? {content : Content} (h : t.content? place = some content) :
    t.find? place = some (.file content) := by
  unfold content? at h
  split at h
  · next found hfound => rw [hfound, Option.some.inj h]
  · cases h

/-- A file that is there is written in place: directories stay, and no other file changes. -/
theorem of_write? {content : Content} (h : t.write? p text locked = some t')
    (hp : t.resolve p = some place) (hfile : t.content? place = some content) :
    SameFolders t t' ∧
      ∀ q, t'.content? q = if q = place then some (.text text) else t.content? q := by
  obtain ⟨place', hp', -, -, rfl⟩ := write?_eq_some_iff.mp h
  obtain rfl := Option.some.inj (hp.symm.trans hp')
  have hfind := find?_of_content? hfile
  have hlookup : ∀ q, find? ⟨putFile place text t.entries⟩ q =
      if q = place then some (.file (.text text)) else t.find? q :=
    fun q => lookup_putFile place q text t.entries
  constructor
  · intro q
    have hbelow : (putFile place text t.entries).any (fun e => isBelow q e.1) =
        t.entries.any fun e => isBelow q e.1 := by
      have hkeys : (putFile place text t.entries).map (·.1) = t.entries.map (·.1) := keys_putFile hfind
      have hany := congrArg (List.any · (isBelow q)) hkeys
      simp only [List.any_map] at hany
      exact hany
    simp only [isDirectoryAt, hlookup, hbelow]
    by_cases hq : q = place
    · simp [hq, hfind]
    · simp [hq]
  · intro q
    simp only [content?, hlookup]
    by_cases hq : q = place
    · simp [hq]
    · simp [hq]

/-- A write to one file leaves the text of another as it is. -/
theorem readText?_of_write? {content : Content} {q : Path} (h : t.write? p text locked = some t')
    (hp : t.resolve p = some place) (hfile : t.content? place = some content)
    (hne : t.resolve p ≠ t.resolve q) : t'.readText? q = t.readText? q := by
  obtain ⟨hfolders, hwritten⟩ := of_write? h hp hfile
  refine readText?_of_sameFolders hfolders fun other hq => ?_
  rw [hwritten, if_neg]
  rintro rfl
  exact hne (hp.trans hq.symm)

end CallChain.FileTree
