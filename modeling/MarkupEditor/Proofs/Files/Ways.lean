import Mathlib.Data.List.Induction
import Mathlib.Data.List.TakeWhile
import MarkupEditor.Files.Directory

set_option autoImplicit false

namespace MarkupEditor

theorem ok_of_bind {ε α β : Type} {x : Except ε α} {f : α → Except ε β} {b : β} (h : x >>= f = .ok b) :
    ∃ a, x = .ok a ∧ f a = .ok b := by
  cases x with
  | error error => cases h
  | ok a => exact ⟨a, rfl, h⟩

theorem Text.splitAll_eq_concat {cut : Char} {cs last : List Char} {pieces : List (List Char)}
    (h : splitAll cut cs = pieces ++ [last]) : cut ∉ last ∧
      (pieces = [] ∧ cs = last ∨ ∃ front, cs = front ++ cut :: last ∧ splitAll cut front = pieces) := by
  by_cases there : cut ∈ cs
  · obtain ⟨back, front, split, whole⟩ := List.eq_append_cons_of_mem (List.mem_reverse.2 there)
    obtain rfl : cs = front.reverse ++ cut :: back.reverse := by simpa using congrArg List.reverse split
    have whole' : cut ∉ back.reverse := mt List.mem_reverse.1 whole
    rw [splitAll_append_cut, splitAll_of_not_mem whole'] at h
    obtain ⟨rfl, same⟩ := List.append_inj' h rfl
    obtain rfl := List.singleton_inj.1 same
    exact ⟨whole', .inr ⟨_, rfl, rfl⟩⟩
  · rw [splitAll_of_not_mem there] at h
    obtain ⟨rfl, same⟩ := List.append_inj' (h.symm.trans (List.nil_append _).symm) rfl
    obtain rfl := List.singleton_inj.1 same
    exact ⟨there, .inl ⟨rfl, rfl⟩⟩

namespace Path

open Text

variable {path name : String} {front : List String}

theorem exists_names (path : String) : ∃ front name, names path = front ++ [name] := by
  have filled : names path ≠ [] := by simpa [names] using splitAll_ne_nil '/' path.toList
  exact ⟨_, _, (List.dropLast_concat_getLast filled).symm⟩

theorem endsWith_slash : path.endsWith "/" = true ↔ ∃ front, path.toList = front ++ ['/'] := by
  rw [String.endsWith_eq_endsWith_toSlice, String.Slice.endsWith_string_iff, String.copy_toSlice]
  exact ⟨fun ⟨front, cut⟩ => ⟨front, cut.symm⟩, fun ⟨front, cut⟩ => ⟨front, cut.symm⟩⟩

theorem splitLast_eq (split : names path = front ++ [name]) (named : name ≠ "") : splitLast path = (front, name) := by
  simp [splitLast, split, List.dropWhile_cons_of_neg, named]

theorem noSlash_of_named (split : names path = front ++ [name]) (named : name ≠ "") :
    path.endsWith "/" = false := by
  refine Bool.eq_false_iff.2 fun slash => named ?_
  obtain ⟨folder, cut⟩ := endsWith_slash.1 slash
  rw [names, cut, splitAll_append_cut, List.map_append] at split
  exact (List.singleton_inj.1 (List.append_inj' split rfl).2).symm

theorem names_eq (noSlash : path.endsWith "/" = false) (named : (splitLast path).2 ≠ "") :
    names path = (splitLast path).1 ++ [(splitLast path).2] := by
  obtain ⟨front, name, split⟩ := exists_names path
  by_cases nothing : name = ""
  · subst nothing
    obtain ⟨pieces, _, cuts, rfl, one⟩ := List.map_eq_append_iff.1 split
    obtain ⟨last, rfl, empty⟩ := List.map_eq_singleton_iff.1 one
    obtain rfl : last = [] := by simpa using congrArg String.toList empty
    rcases (splitAll_eq_concat cuts).2 with ⟨-, root⟩ | ⟨folder, slash, -⟩
    · rw [splitLast, names, root] at named
      exact absurd rfl named
    · rw [endsWith_slash.2 ⟨folder, slash⟩] at noSlash
      cases noSlash
  · rw [splitLast_eq split nothing, split]

theorem stepsBack_slash (front : List Char) :
    stepsBack (String.ofList (front ++ ['/'])) = stepsBack (String.ofList front) := by
  simp [stepsBack, names, splitAll_append_cut, splitAll]

theorem stepsBack_dot (front : List Char) :
    stepsBack (String.ofList (front ++ ['/', '.'])) = stepsBack (String.ofList front) := by
  simp [stepsBack, names, splitAll_append_cut, splitAll, consFirst]

theorem stepsBack_dropTail (cs : List Char) :
    stepsBack (String.ofList (dropTail cs).reverse) = stepsBack (String.ofList cs.reverse) := by
  induction cs using dropTail.induct with
  | case1 cs ih => rw [dropTail, ih, List.reverse_cons, stepsBack_slash]
  | case2 cs ih =>
    rw [dropTail, ih, List.reverse_cons, List.reverse_cons, List.reverse_cons, stepsBack_slash, List.append_assoc]
    exact (stepsBack_dot _).symm
  | case3 cs notSlash notDot => rw [dropTail.eq_3 cs notSlash notDot]

theorem dropTail_suffix (cs : List Char) : dropTail cs <:+ cs := by
  induction cs using dropTail.induct with
  | case1 cs ih =>
    rw [dropTail]
    exact ih.trans (List.suffix_cons _ _)
  | case2 cs ih =>
    rw [dropTail]
    exact ih.trans (List.suffix_cons _ _)
  | case3 cs notSlash notDot => exact ⟨[], dropTail.eq_3 cs notSlash notDot⟩

theorem dropTail_named {cs rest : List Char} (whole : '/' ∉ cs) (named : cs ≠ [] ∧ cs ≠ ['.']) :
    dropTail (cs ++ rest) = cs ++ rest := by
  match cs with
  | [] => exact absurd rfl named.1
  | [c] =>
    refine dropTail.eq_3 _ (fun _ slash => whole ?_) (fun _ dot => named.2 ?_)
    · simpa using (List.cons.inj slash).1.symm
    · rw [(List.cons.inj dot).1]
  | c :: d :: cs =>
    refine dropTail.eq_3 _ (fun _ slash => whole ?_) (fun _ dot => whole ?_)
    · rw [(List.cons.inj slash).1]
      exact List.mem_cons_self
    · rw [(List.cons.inj (List.cons.inj dot).2).1]
      exact List.mem_cons_of_mem _ List.mem_cons_self

theorem cutLast_eq {folder last : List Char} (split : path.toList = folder ++ last)
    (ends : folder = [] ∨ ∃ front, folder = front ++ ['/']) (whole : '/' ∉ last)
    (named : last ≠ [] ∧ last ≠ ['.']) : cutLast path = (folder, last) := by
  have whole' : '/' ∉ last.reverse := mt List.mem_reverse.1 whole
  have name : ∀ c ∈ last.reverse, (c != '/') = true := fun c there => bne_iff_ne.2 fun same => whole' (same ▸ there)
  have kept : dropTail path.toList.reverse = last.reverse ++ folder.reverse := by
    rw [split, List.reverse_append]
    exact dropTail_named whole' (by simpa [List.reverse_eq_cons_iff] using named)
  rw [cutLast, kept]
  rcases ends with rfl | ⟨front, rfl⟩
  · simp [List.takeWhile_eq_self_iff.2 name, List.dropWhile_eq_nil_iff.2 name]
  · simp [List.takeWhile_append_of_pos name, List.dropWhile_append_of_pos name]

theorem stepsBack_parent (split : names path = front ++ [name]) (named : name ≠ "" ∧ name ≠ ".") :
    stepsBack (parent path) = (front.filter fun name => name ≠ "" ∧ name ≠ ".").reverse := by
  obtain ⟨pieces, _, cuts, rfl, one⟩ := List.map_eq_append_iff.1 split
  obtain ⟨last, rfl, rfl⟩ := List.map_eq_singleton_iff.1 one
  obtain ⟨whole, cut⟩ := splitAll_eq_concat cuts
  have named : last ≠ [] ∧ last ≠ ['.'] :=
    ⟨fun none => named.1 (none ▸ rfl), fun dot => named.2 (dot ▸ rfl)⟩
  rcases cut with ⟨rfl, path_eq⟩ | ⟨front, path_eq, rfl⟩
  · rw [parent, cutLast_eq path_eq (.inl rfl) whole named]
    rfl
  · have cut : path.toList = (front ++ ['/']) ++ last := by simpa using path_eq
    rw [parent, cutLast_eq cut (.inr ⟨front, rfl⟩) whole named, stepsBack_dropTail, List.reverse_reverse,
      stepsBack_slash]
    simp [stepsBack, names]

theorem parent_prefix (path : String) : ∃ rest, path = parent path ++ rest := by
  have suffix : (parent path).toList.reverse <:+ path.toList.reverse := by
    simp only [parent, cutLast, String.toList_ofList, List.reverse_reverse]
    exact ((dropTail_suffix _).trans (List.dropWhile_suffix _)).trans (dropTail_suffix _)
  obtain ⟨rest, split⟩ := List.reverse_suffix.1 suffix
  exact ⟨String.ofList rest, String.toList_injective (by simp [split])⟩

end Path

namespace Directory

variable {d e f : Directory} {place there : Location} {name path : String} {names steps : List String}

/-- Whether every folder of a directory is one of another directory. -/
def KeepsFolders (d e : Directory) : Prop :=
  ∀ place, d.get? place = some .folder → e.get? place = some .folder

theorem ne_root (free : d.get? place ≠ some .folder) : place ≠ [] :=
  fun root => free (root ▸ d.get?_nil)

namespace KeepsFolders

theorem refl (d : Directory) : KeepsFolders d d := fun _ h => h

theorem trans (h : KeepsFolders d e) (h' : KeepsFolders e f) : KeepsFolders d f :=
  fun place folder => h' place (h place folder)

theorem insert (free : d.get? place ≠ some .folder) (entry : Entry) :
    KeepsFolders d (d.insert place entry) := by
  intro other folder
  have apart : other ≠ place := fun h => free (h ▸ folder)
  rw [get?_insert d (ne_root free), if_neg apart, folder]

theorem of_insert (root : place ≠ []) (text : String) : KeepsFolders (d.insert place (.file text)) d := by
  intro other folder
  rw [get?_insert d root] at folder
  split at folder
  · cases folder
  · exact folder

theorem erase (free : d.get? place ≠ some .folder) : KeepsFolders d (d.erase place) := by
  intro other folder
  have apart : other ≠ place := fun h => free (h ▸ folder)
  rw [get?_erase d (ne_root free), if_neg apart, folder]

end KeepsFolders

theorem folder_of_next (h : d.next place name = .ok there) : d.get? place = some .folder := by
  unfold next at h
  split at h
  · cases h
  · cases h
  · assumption

theorem stays_of_nameless (step : d.next place name = .ok there) (nameless : ¬ (name ≠ "" ∧ name ≠ ".")) :
    there = place := by
  rw [next, folder_of_next step] at step
  have nothing : name = "" ∨ name = "." := by simpa [or_iff_not_imp_left] using nameless
  simp only [if_pos nothing] at step
  exact (Except.ok.inj step).symm

theorem follow_append (d : Directory) (names : List String) (name : String) :
    d.follow (names ++ [name]) = d.follow names >>= fun place => d.next place name := by
  simp only [follow, List.foldlM_append, List.foldlM_cons, List.foldlM_nil, bind_pure]

namespace KeepsFolders

theorem next (keeps : KeepsFolders d e) (h : d.next place name = .ok there) :
    e.next place name = .ok there := by
  have folder := folder_of_next h
  rw [Directory.next, folder] at h
  rw [Directory.next, keeps place folder]
  exact h

theorem follow (keeps : KeepsFolders d e) (h : d.follow names = .ok there) :
    e.follow names = .ok there := by
  induction names using List.reverseRecOn generalizing there with
  | nil => exact h
  | append_singleton names name ih =>
    obtain ⟨place, found, step⟩ := ok_of_bind (d.follow_append names name ▸ h)
    rw [follow_append, ih found]
    exact keeps.next step

theorem locate (keeps : KeepsFolders d e) (h : d.locate path = .ok there) : e.locate path = .ok there := by
  obtain ⟨checked, lawful, found⟩ := ok_of_bind h
  rw [Directory.locate, lawful]
  exact keeps.follow found

end KeepsFolders

theorem isFolder_iff :
    d.isFolder names = true ↔ ∃ place, d.follow names = .ok place ∧ d.get? place = some .folder := by
  unfold isFolder
  cases d.follow names <;> simp

theorem KeepsFolders.isFolder (keeps : KeepsFolders d e) (h : d.isFolder names = true) :
    e.isFolder names = true := by
  obtain ⟨place, found, folder⟩ := isFolder_iff.1 h
  exact isFolder_iff.2 ⟨place, keeps.follow found, keeps place folder⟩

theorem makeFolder_ok {made : Directory} (h : d.makeFolder names name = .ok made) :
    KeepsFolders d made ∧ made.isFolder (names ++ [name]) = true := by
  obtain ⟨place, found, h⟩ := ok_of_bind h
  obtain ⟨there, step, h⟩ := ok_of_bind h
  split at h
  · cases h
  · rename_i none
    obtain rfl := Except.ok.inj h
    have free : d.get? there ≠ some .folder := fun folder => none (by simp [folder])
    have keeps := KeepsFolders.insert free .folder
    refine ⟨keeps, isFolder_iff.2 ⟨there, ?_, ?_⟩⟩
    · rw [follow_append, keeps.follow found]
      exact keeps.next step
    · rw [get?_insert d (ne_root free), if_pos rfl]

theorem makeFolder_of_isFolder (h : d.isFolder (names ++ [name]) = true) :
    d.makeFolder names name = .error .exists := by
  obtain ⟨there, found, folder⟩ := isFolder_iff.1 h
  obtain ⟨place, way, step⟩ := ok_of_bind (d.follow_append names name ▸ found)
  simp [makeFolder, way, step, folder, bind, Except.bind]

theorem settle_ok {attempt : Except FileError Directory} (h : d.settle names attempt = (e, .ok ())) :
    attempt = .ok e ∨ (e = d ∧ d.isFolder names = true) := by
  cases attempt with
  | ok made =>
    simp only [settle, Prod.mk.injEq, and_true] at h
    exact .inl (congrArg _ h)
  | error error =>
    simp only [settle, Prod.mk.injEq] at h
    obtain ⟨rfl, there⟩ := h
    refine .inr ⟨rfl, ?_⟩
    by_contra none
    rw [if_neg none] at there
    cases there

theorem settle_makeFolder {above : List String}
    (h : d.settle (name :: above).reverse (d.makeFolder above.reverse name) = (e, .ok ())) :
    KeepsFolders d e ∧ e.isFolder (name :: above).reverse = true := by
  rcases settle_ok h with attempt | ⟨rfl, there⟩
  · rw [List.reverse_cons]
    exact makeFolder_ok attempt
  · exact ⟨.refl _, there⟩

/-- A way that was made is there, and no folder was taken away for it. -/
theorem makeWay_ok (h : d.makeWay steps = (e, .ok ())) :
    KeepsFolders d e ∧ e.isFolder steps.reverse = true := by
  induction steps generalizing d e with
  | nil =>
    obtain rfl := congrArg Prod.fst h
    exact ⟨.refl _, rfl⟩
  | cons name above ih =>
    rw [makeWay] at h
    split at h
    · split at h
      · rename_i made way
        obtain ⟨keeps, there⟩ := settle_makeFolder h
        exact ⟨(ih way).1.trans keeps, there⟩
      · rename_i failed
        exact (failed e h).elim
    · exact settle_makeFolder h

theorem makeWay_of_isFolder (h : d.isFolder steps.reverse = true) : d.makeWay steps = (d, .ok ()) := by
  cases steps with
  | nil => rfl
  | cons name above =>
    rw [List.reverse_cons] at h
    rw [makeWay, makeFolder_of_isFolder h]
    simp [settle, h]

theorem makeFolders_ok (h : d.makeFolders path = (e, .ok ())) :
    checkPath path = .ok () ∧ KeepsFolders d e ∧ e.isFolder (Path.stepsBack path).reverse = true := by
  unfold makeFolders at h
  cases checked : checkPath path with
  | error error => simp [checked] at h
  | ok =>
    rw [checked] at h
    exact ⟨rfl, makeWay_ok h⟩

theorem makeFolders_of_isFolder (checked : checkPath path = .ok ())
    (h : d.isFolder (Path.stepsBack path).reverse = true) : d.makeFolders path = (d, .ok ()) := by
  rw [makeFolders, checked]
  exact makeWay_of_isFolder h

theorem readText_of_file {text : String} (found : d.locate path = .ok place)
    (file : d.get? place = some (.file text)) : d.readText path = .ok text := by
  simp [readText, found, file, bind, Except.bind]

theorem readText_ok {text : String} (h : d.readText path = .ok text) :
    ∃ place, d.locate path = .ok place ∧ d.get? place = some (.file text) := by
  obtain ⟨place, found, h⟩ := ok_of_bind h
  split at h
  · rename_i file
    obtain rfl := Except.ok.inj h
    exact ⟨place, found, file⟩
  all_goals cases h

theorem writeText_ok {text : String} :
    d.writeText path text = .ok e ↔
      ∃ place, d.locate path = .ok place ∧ d.get? place ≠ some .folder ∧ e = d.insert place (.file text) := by
  constructor
  · intro h
    obtain ⟨place, found, h⟩ := ok_of_bind h
    split at h
    · cases h
    · rename_i free
      exact ⟨place, found, free, (Except.ok.inj h).symm⟩
  · rintro ⟨place, found, free, rfl⟩
    cases there : d.get? place with
    | none => simp [writeText, found, there, bind, Except.bind]
    | some entry =>
      cases entry with
      | folder => exact absurd there free
      | file old => simp [writeText, found, there, bind, Except.bind]

/-- The place that a file takes which is moved to a path. -/
def target (d : Directory) (path : String) : Except FileError Location :=
  d.follow (Path.splitLast path).1 >>= fun folder => d.next folder (Path.splitLast path).2

theorem KeepsFolders.target (keeps : KeepsFolders d e) (h : d.target path = .ok place) :
    e.target path = .ok place := by
  obtain ⟨folder, way, step⟩ := ok_of_bind h
  rw [Directory.target, keeps.follow way]
  exact keeps.next step

theorem locate_of_target (checked : checkPath path = .ok ()) (noSlash : path.endsWith "/" = false)
    (free : d.get? place ≠ some .folder) (h : d.target path = .ok place) : d.locate path = .ok place := by
  obtain ⟨folder, way, step⟩ := ok_of_bind h
  have named : (Path.splitLast path).2 ≠ "" := by
    intro nothing
    rw [stays_of_nameless step (by simp [nothing])] at free
    exact free (folder_of_next step)
  rw [locate, checked, Path.names_eq noSlash named]
  exact (d.follow_append _ _).trans h

theorem checkPath_parent (h : checkPath path = .ok ()) : checkPath (Path.parent path) = .ok () := by
  obtain ⟨rest, split⟩ := Path.parent_prefix path
  generalize Path.parent path = folder at split ⊢
  subst split
  have bytes : (folder ++ rest).utf8ByteSize = folder.utf8ByteSize + rest.utf8ByteSize :=
    String.utf8ByteSize_append
  unfold checkPath at h ⊢
  split at h
  · cases h
  rename_i noNul
  split at h
  · cases h
  have clean : ¬ folder.toList.contains '\x00' = true := fun nul => noNul (by simp_all)
  rw [if_neg clean, if_neg (by omega)]

theorem follow_filter (h : d.follow names = .ok place) :
    d.follow (names.filter fun name => name ≠ "" ∧ name ≠ ".") = .ok place := by
  induction names using List.reverseRecOn generalizing place with
  | nil => exact h
  | append_singleton names name ih =>
    obtain ⟨folder, way, step⟩ := ok_of_bind (d.follow_append names name ▸ h)
    rw [List.filter_append]
    by_cases named : name ≠ "" ∧ name ≠ "."
    · rw [List.filter_cons_of_pos (by simpa using named), List.filter_nil, follow_append, ih way]
      exact step
    · rw [List.filter_cons_of_neg (by simpa using named), List.filter_nil, List.append_nil, ih way]
      exact congrArg _ (stays_of_nameless step named).symm

theorem parent_of_locate (found : d.locate path = .ok place) (free : d.get? place ≠ some .folder) :
    d.isFolder (Path.stepsBack (Path.parent path)).reverse = true ∧ path.endsWith "/" = false ∧
      d.target path = .ok place := by
  obtain ⟨_, -, found⟩ := ok_of_bind found
  obtain ⟨front, name, split⟩ := Path.exists_names path
  rw [split, follow_append] at found
  obtain ⟨folder, way, step⟩ := ok_of_bind found
  have named : name ≠ "" ∧ name ≠ "." := by
    by_contra nameless
    rw [stays_of_nameless step nameless] at free
    exact free (folder_of_next step)
  refine ⟨?_, Path.noSlash_of_named split named.1, ?_⟩
  · rw [Path.stepsBack_parent split named, List.reverse_reverse]
    exact isFolder_iff.2 ⟨folder, follow_filter way, folder_of_next step⟩
  · rw [target, Path.splitLast_eq split named.1]
    exact found

theorem moveFile_ok {source : String} :
    d.moveFile source path = .ok e ↔
      ∃ text from_ place, d.locate source = .ok from_ ∧ d.get? from_ = some (.file text) ∧
        checkPath path = .ok () ∧ d.target path = .ok place ∧ path.endsWith "/" = false ∧
        d.get? place ≠ some .folder ∧ e = (d.erase from_).insert place (.file text) := by
  constructor
  · intro h
    obtain ⟨text, read, h⟩ := ok_of_bind h
    obtain ⟨from_, found, file⟩ := readText_ok read
    obtain ⟨same, again, h⟩ := ok_of_bind h
    obtain rfl : from_ = same := Except.ok.inj (found.symm.trans again)
    obtain ⟨⟨⟩, checked, h⟩ := ok_of_bind h
    dsimp only at h
    obtain ⟨folder, way, h⟩ := ok_of_bind h
    obtain ⟨place, step, h⟩ := ok_of_bind h
    split at h
    · cases h
    rename_i noSlash
    split at h
    · cases h
    rename_i free
    refine ⟨text, from_, place, found, file, checked, ?_, by simpa using noSlash, free, (Except.ok.inj h).symm⟩
    rw [target, way]
    exact step
  · rintro ⟨text, from_, place, found, file, checked, there, noSlash, free, rfl⟩
    obtain ⟨folder, way, step⟩ := ok_of_bind there
    simp [moveFile, readText_of_file found file, found, checked, way, step, noSlash, free, bind, Except.bind]

end Directory

end MarkupEditor
