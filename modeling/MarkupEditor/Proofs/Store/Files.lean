import MarkupEditor.Proofs.Files.Ways
import MarkupEditor.Proofs.Json.Strings
import MarkupEditor.Proofs.Store.Journal
import MarkupEditor.Store.File

set_option autoImplicit false

namespace MarkupEditor

namespace Text

theorem mem_dropWhile {p : Char → Bool} {cs : List Char} {c : Char} (there : c ∈ cs) (h : p c = false) :
    c ∈ cs.dropWhile p := by
  rw [← List.takeWhile_append_dropWhile (p := p) (l := cs)] at there
  rcases List.mem_append.1 there with front | back
  · rw [List.mem_takeWhile_imp front] at h
    cases h
  · exact back

theorem trim_ne_nil {cs : List Char} {c : Char} (there : c ∈ cs) (h : isBlank c = false) : trim cs ≠ [] := by
  have stays : c ∈ trim cs :=
    List.mem_reverse.2 (mem_dropWhile (List.mem_reverse.2 (mem_dropWhile there h)) h)
  exact List.ne_nil_of_mem stays

end Text

theorem insertEntry_last {id value : String} {entries : List (String × String)}
    (last : ∀ entry ∈ entries, entry.1 < id) :
    insertEntry id value entries = entries ++ [(id, value)] := by
  induction entries with
  | nil => rfl
  | cons first entries ih =>
    have less := last first List.mem_cons_self
    have notLess : ¬ id < first.1 := fun more => String.lt_irrefl _ (String.lt_trans less more)
    have notSame : ¬ id = first.1 := fun same => String.lt_irrefl _ (same ▸ less)
    rw [insertEntry, if_neg notLess, if_neg notSame,
      ih fun entry there => last entry (List.mem_cons_of_mem _ there)]
    rfl

namespace Components

theorem ext {a b : Components} (h : a.entries = b.entries) : a = b := by
  cases a
  cases b
  cases h
  rfl

theorem entries_ofList {entries : List (String × String)} (ascending : Ascending entries) :
    (ofList entries).entries = entries := by
  induction entries using List.reverseRecOn with
  | nil => rfl
  | append_singleton entries entry ih =>
    obtain ⟨before, -, less⟩ := List.pairwise_append.1 ascending
    have step : (ofList (entries ++ [entry])).entries =
        insertEntry entry.1 entry.2 (ofList entries).entries := by
      simp [ofList, insert]
    rw [step, ih before]
    exact insertEntry_last fun e he => less e he entry (List.mem_singleton.2 rfl)

theorem ofList_entries (components : Components) : ofList components.entries = components :=
  ext (entries_ofList components.ascending)

theorem toText_eq (components : Components) :
    components.toText = (Json.ofStrings components.entries).printPretty :=
  rfl

theorem toText_brace (components : Components) : ∃ text, components.toText.toList = '{' :: text := by
  rw [toText_eq]
  cases components.entries with
  | nil => exact ⟨['}'], rfl⟩
  | cons first entries => exact ⟨_, Json.printPretty_strings first entries⟩

theorem entries?_strings (entries : List (String × String)) :
    Json.entries? Json.string? (Json.ofStrings entries) = some entries := by
  rw [Json.ofStrings, Json.entries?]
  induction entries with
  | nil => rfl
  | cons entry entries ih =>
    rw [List.map_cons, List.mapM_cons, ih]
    rfl

theorem ofText?_toText (components : Components) : ofText? components.toText = some components := by
  obtain ⟨text, brace⟩ := components.toText_brace
  have visible : Text.trim components.toText.toList ≠ [] := by
    rw [brace]
    exact Text.trim_ne_nil List.mem_cons_self (by decide)
  rw [ofText?, if_neg (by simpa using visible), toText_eq, Json.read_printPretty_strings,
    Option.bind_some, entries?_strings, Option.map_some, ofList_entries]

end Components

namespace Directory

variable {d : Directory} {path draftPath : String} {draft place : Location}

/-- A directory takes a file by way of a draft: the folder of the file stands, and no folder stands where the
file or its draft goes. -/
structure Takes (d : Directory) (path draftPath : String) (draft place : Location) : Prop where
  parent : checkPath (Path.parent path) = .ok ()
  folder : d.isFolder (Path.stepsBack (Path.parent path)).reverse = true
  drafted : d.locate draftPath = .ok draft
  draftFree : d.get? draft ≠ some .folder
  checked : checkPath path = .ok ()
  noSlash : path.endsWith "/" = false
  goes : d.target path = .ok place
  placeFree : d.get? place ≠ some .folder

/-- The directory after a text was written to a draft and the draft took the place of the file. -/
def afterDraft (d : Directory) (draft place : Location) (text : String) : Directory :=
  ((d.insert draft (.file text)).erase draft).insert place (.file text)

namespace Takes

theorem get?_draft (h : d.Takes path draftPath draft place) (text : String) :
    (d.insert draft (.file text)).get? draft = some (.file text) := by
  rw [get?_insert d (ne_root h.draftFree), if_pos rfl]

theorem get?_place (h : d.Takes path draftPath draft place) (text : String) :
    (d.afterDraft draft place text).get? place = some (.file text) := by
  rw [afterDraft, get?_insert _ (ne_root h.placeFree), if_pos rfl]

theorem keepsDraft (h : d.Takes path draftPath draft place) (text : String) :
    KeepsFolders d (d.insert draft (.file text)) :=
  .insert h.draftFree _

theorem keeps (h : d.Takes path draftPath draft place) (text : String) :
    KeepsFolders d (d.afterDraft draft place text) := by
  have free : (d.insert draft (.file text)).get? draft ≠ some .folder := by
    rw [h.get?_draft]
    nofun
  refine ((h.keepsDraft text).trans (.erase free)).trans (.insert ?_ _)
  rw [get?_erase _ (ne_root h.draftFree), get?_insert _ (ne_root h.draftFree)]
  split
  · nofun
  · exact h.placeFree

theorem afterDraft (h : d.Takes path draftPath draft place) (text : String) :
    (d.afterDraft draft place text).Takes path draftPath draft place := by
  have keeps := h.keeps text
  refine ⟨h.parent, keeps.isFolder h.folder, keeps.locate h.drafted, ?_, h.checked, h.noSlash,
    keeps.target h.goes, ?_⟩
  · rw [Directory.afterDraft, get?_insert _ (ne_root h.placeFree), get?_erase _ (ne_root h.draftFree),
      if_pos rfl]
    split <;> nofun
  · rw [h.get?_place]
    nofun

theorem writeText (h : d.Takes path draftPath draft place) (text : String) :
    d.writeText draftPath text = .ok (d.insert draft (.file text)) :=
  writeText_ok.2 ⟨draft, h.drafted, h.draftFree, rfl⟩

theorem moveFile (h : d.Takes path draftPath draft place) (text : String) :
    (d.insert draft (.file text)).moveFile draftPath path = .ok (d.afterDraft draft place text) := by
  have keeps := h.keepsDraft text
  refine moveFile_ok.2 ⟨text, draft, place, keeps.locate h.drafted, h.get?_draft text, h.checked,
    keeps.target h.goes, h.noSlash, ?_, rfl⟩
  rw [get?_insert _ (ne_root h.draftFree)]
  split
  · nofun
  · exact h.placeFree

theorem readText (h : d.Takes path draftPath draft place) (text : String) :
    (d.afterDraft draft place text).readText path = .ok text := by
  have after := h.afterDraft text
  exact readText_of_file (locate_of_target h.checked h.noSlash after.placeFree after.goes) (h.get?_place text)

end Takes

end Directory

namespace FileStore

variable {s : FileStore} {draft place : Location} {components : Components}

/-- A store that can be written: its directory takes its file. -/
def Ready (s : FileStore) (draft place : Location) : Prop :=
  s.directory.Takes s.path s.draftPath draft place

theorem Ready.save (h : s.Ready draft place) (components : Components) :
    ∃ next : FileStore, s.save components = ⟨next, .ok ()⟩ ∧ next.path = s.path ∧
      next.Ready draft place ∧ next.load = .ok components := by
  refine ⟨s.inDirectory (s.directory.afterDraft draft place components.toText), ?_, rfl,
    h.afterDraft _, ?_⟩
  · rw [FileStore.save, Directory.makeFolders_of_isFolder h.parent h.folder]
    simp only [h.writeText, h.moveFile]
  · have read : (s.inDirectory (s.directory.afterDraft draft place components.toText)).directory.readText
        s.path = .ok components.toText := h.readText _
    rw [load]
    simp only [inDirectory] at read ⊢
    rw [read]
    simp only [Components.ofText?_toText]

theorem ready_of_save (h : (s.save components).answer = .ok ()) :
    ∃ d draft place, s.directory.makeFolders (Path.parent s.path) = (d, .ok ()) ∧
      (s.inDirectory d).Ready draft place := by
  unfold save at h
  split at h
  · cases h
  rename_i d made
  split at h
  · cases h
  rename_i withDraft wrote
  split at h
  · cases h
  rename_i directory moved
  obtain ⟨draft, drafted, draftFree, rfl⟩ := Directory.writeText_ok.1 wrote
  obtain ⟨text, from_, place, -, -, checked, goes, noSlash, placeFree, -⟩ := Directory.moveFile_ok.1 moved
  obtain ⟨parent, -, folder⟩ := Directory.makeFolders_ok made
  have adds : Directory.KeepsFolders _ d := .of_insert (Directory.ne_root draftFree) components.toText
  have keeps := Directory.KeepsFolders.insert draftFree (.file components.toText)
  exact ⟨d, draft, place, made, parent, folder, drafted, draftFree, checked, noSlash, adds.target goes,
    fun there => placeFree (keeps place there)⟩

def Writable (s : FileStore) : Prop :=
  (s.save .empty).answer = .ok ()

instance (s : FileStore) : Decidable s.Writable :=
  inferInstanceAs (Decidable (_ = _))

theorem save_again (h : (s.save components).answer = .ok ()) (other : Components) :
    ∃ next : FileStore, s.save other = ⟨next, .ok ()⟩ ∧ next.path = s.path ∧ next.load = .ok other ∧
      next.Writable := by
  obtain ⟨d, draft, place, made, ready⟩ := ready_of_save h
  have there : d.makeFolders (Path.parent s.path) = (d, .ok ()) :=
    Directory.makeFolders_of_isFolder ready.parent ready.folder
  have sameSave : s.save other = (s.inDirectory d).save other := by
    simp only [save, inDirectory, draftPath, made, there]
  obtain ⟨next, saved, path, again, loaded⟩ := ready.save other
  obtain ⟨_, savedAgain, -⟩ := again.save .empty
  refine ⟨next, sameSave.trans saved, path, loaded, ?_⟩
  rw [Writable, savedAgain]

theorem save_answer (s : FileStore) (components : Components) :
    (s.save components).answer = .ok () ∨ ∃ error, (s.save components).answer = .error (.file error) := by
  unfold save
  split
  · exact .inr ⟨_, rfl⟩
  · split
    · exact .inr ⟨_, rfl⟩
    · split
      · exact .inr ⟨_, rfl⟩
      · exact .inl rfl

theorem save_of_read {text : String} (read : s.directory.readText s.path = .ok text) (components : Components) :
    (∃ error, s.save components = ⟨s, .error error⟩) ∨
      ∃ next : FileStore, s.save components = ⟨next, .ok ()⟩ ∧ next.load = .ok components := by
  obtain ⟨place, found, file⟩ := Directory.readText_ok read
  have free : s.directory.get? place ≠ some .folder := by rw [file]; nofun
  obtain ⟨⟨⟩, checked, -⟩ := ok_of_bind found
  obtain ⟨folder, noSlash, goes⟩ := Directory.parent_of_locate found free
  have parent := Directory.checkPath_parent checked
  have made := Directory.makeFolders_of_isFolder parent folder
  cases wrote : s.directory.writeText s.draftPath components.toText with
  | error error =>
    refine .inl ⟨.file error, ?_⟩
    simp only [save, made, wrote, inDirectory]
  | ok withDraft =>
    obtain ⟨draft, drafted, draftFree, -⟩ := Directory.writeText_ok.1 wrote
    have ready : s.Ready draft place := ⟨parent, folder, drafted, draftFree, checked, noSlash, goes, free⟩
    obtain ⟨next, saved, -, -, loaded⟩ := ready.save components
    exact .inr ⟨next, saved, loaded⟩

theorem readText_of_known {id : String} (loaded : s.load = .ok components)
    (known : (components.get? id).isSome = true) : ∃ text, s.directory.readText s.path = .ok text := by
  unfold load at loaded
  split at loaded
  · exact ⟨_, ‹_›⟩
  · obtain rfl := Except.ok.inj loaded
    cases known
  · cases loaded

theorem update_cases (s : FileStore) (id value : String) :
    (∃ error, s.update id value = ⟨s, .error error⟩) ∨
      ∃ components next, s.load = .ok components ∧ s.update id value = ⟨next, .ok ()⟩ ∧
        next.load = .ok (components.insert id value) := by
  unfold update
  cases loaded : s.load with
  | error error => exact .inl ⟨error, rfl⟩
  | ok components =>
    by_cases known : (components.get? id).isSome = true
    · obtain ⟨text, read⟩ := readText_of_known loaded known
      simp only [if_pos known]
      rcases save_of_read read (components.insert id value) with failed | ⟨next, saved, written⟩
      · exact .inl failed
      · exact .inr ⟨components, next, rfl, saved, written⟩
    · exact .inl ⟨.notFound id, if_neg known⟩

/-- A store under a path holds a journal if the components in its file do. -/
structure Holds (path : String) (s : FileStore) (j : Journal) : Prop where
  path : s.path = path
  loads : ∃ components, s.load = .ok components ∧ components.Holds j

variable {path : String} {j : Journal}

theorem Holds.ofBlank {directory : Directory} (blank : directory.readText path = .error .notFound ∨
    ∃ text, directory.readText path = .ok text ∧ (Text.trim text.toList).isEmpty = true) :
    Holds path ⟨path, directory⟩ .empty := by
  refine ⟨rfl, .empty, ?_, .empty⟩
  rcases blank with missing | ⟨text, read, blank⟩
  · simp only [load, missing]
  · simp only [load, read, Components.ofText?, if_pos blank]

theorem Holds.read (h : Holds path s j) (id : String) : ComponentStore.read s id = .ok (j.get? id) := by
  obtain ⟨components, loaded, held⟩ := h.loads
  change s.read id = _
  rw [FileStore.read, loaded]
  exact congrArg Except.ok (held id)

theorem Holds.create (h : Holds path s j) (id value : String) :
    ∃ components : Components, components.Holds (j.write id value) ∧
      ComponentStore.create s id value = s.save components := by
  obtain ⟨components, loaded, held⟩ := h.loads
  refine ⟨_, held.insert id value, ?_⟩
  change s.create id value = _
  rw [FileStore.create, loaded]

theorem Holds.update (h : Holds path s j) (id value : String) (known : (j.get? id).isSome = true) :
    ∃ components : Components, components.Holds (j.write id value) ∧
      ComponentStore.update s id value = s.save components := by
  obtain ⟨components, loaded, held⟩ := h.loads
  refine ⟨_, held.insert id value, ?_⟩
  change s.update id value = _
  rw [FileStore.update, loaded]
  exact if_pos (by rwa [held id])

theorem Holds.unknown (h : Holds path s j) (id value : String) (unknown : j.get? id = none) :
    ComponentStore.update s id value = ⟨s, .error (.notFound id)⟩ := by
  obtain ⟨components, loaded, held⟩ := h.loads
  change s.update id value = _
  rw [FileStore.update, loaded]
  exact if_neg (by rw [held id, unknown]; exact Bool.false_ne_true)

theorem Holds.save (h : Holds path s j) {written : Journal} (held : components.Holds written)
    (works : ∀ error, (s.save components).answer ≠ .error (.file error)) :
    (s.save components).answer = .ok () ∧ Holds path (s.save components).store written := by
  rcases s.save_answer components with done | ⟨error, failed⟩
  · obtain ⟨next, saved, same, loaded, -⟩ := save_again done components
    rw [saved]
    exact ⟨rfl, same.trans h.path, components, loaded, held⟩
  · exact absurd failed (works error)

theorem Holds.perform (h : Holds path s j) (call : StoreCall)
    (works : ∀ error, (call.perform s).2 ≠ .error (.file error)) :
    (call.perform s).2 = (call.enter j).2 ∧ Holds path (call.perform s).1 (call.enter j).1 := by
  cases call with
  | create id value =>
    obtain ⟨components, held, reply⟩ := h.create id value
    simp only [StoreCall.perform, StoreCall.enter, reply] at works ⊢
    obtain ⟨answer, next⟩ := h.save held fun error failed => works error (by rw [failed]; rfl)
    rw [answer]
    exact ⟨rfl, next⟩
  | read id => exact ⟨h.read id, h⟩
  | update id value =>
    cases known : j.get? id with
    | none =>
      simp only [StoreCall.perform, StoreCall.enter, h.unknown id value known, known]
      exact ⟨rfl, h⟩
    | some old =>
      obtain ⟨components, held, reply⟩ := h.update id value (by rw [known]; rfl)
      simp only [StoreCall.perform, StoreCall.enter, reply, known] at works ⊢
      obtain ⟨answer, next⟩ := h.save held fun error failed => works error (by rw [failed]; rfl)
      rw [answer]
      exact ⟨rfl, next⟩

theorem keepsJournal (path : String) :
    KeepsJournal fun (s : FileStore) j => Holds path s j ∧ s.Writable := by
  have write {s : FileStore} {j written : Journal} {reply : StoreReply FileStore}
      (h : Holds path s j ∧ s.Writable) (saves : ∃ components : Components,
        components.Holds written ∧ reply = s.save components) :
      reply.answer = .ok () ∧ Holds path reply.store written ∧ reply.store.Writable := by
    obtain ⟨components, held, saves⟩ := saves
    obtain ⟨next, saved, same, loaded, again⟩ := save_again h.2 components
    rw [saves, saved]
    exact ⟨rfl, ⟨same.trans h.1.path, components, loaded, held⟩, again⟩
  exact {
    read := fun h => h.1.read
    create := fun h id value => write h (h.1.create id value)
    update := fun h id value known => write h (h.1.update id value known)
    unknown := fun h => h.1.unknown }

end FileStore

/-- A call on a store in a file, before which the file may be opened anew. -/
structure FileCall where
  reopens : Bool
  call : StoreCall

namespace FileCall

def opened (path : String) (s : FileStore) (c : FileCall) : FileStore :=
  if c.reopens then ⟨path, s.directory⟩ else s

def perform (path : String) (s : FileStore) (c : FileCall) :
    FileStore × Except StoreError (Option String) :=
  c.call.perform (c.opened path s)

/-- It makes no difference to a store whether it is opened anew. -/
theorem opened_eq {path : String} {s : FileStore} (h : s.path = path) (c : FileCall) :
    c.opened path s = s := by
  unfold opened
  split
  · rw [← h]
  · rfl

end FileCall

namespace FileStore

variable {s : FileStore} {path : String} {j : Journal}

theorem Holds.answers (h : Holds path s j) (calls : List FileCall)
    (works : ∀ answer ∈ answersOf (FileCall.perform path) s calls, ∀ error, answer ≠ .error (.file error)) :
    answersOf (FileCall.perform path) s calls = answersOf StoreCall.enter j (calls.map (·.call)) := by
  induction calls generalizing s j with
  | nil => rfl
  | cons c calls ih =>
    simp only [answersOf, List.map_cons, FileCall.perform, FileCall.opened_eq h.path] at works ⊢
    obtain ⟨answer, next⟩ := h.perform c.call (works _ List.mem_cons_self)
    rw [answer, ih next fun answer later => works answer (List.mem_cons_of_mem _ later)]

/-- If a store can be written once, no call on it ever fails for its file. -/
theorem Holds.works (h : Holds path s j) (writable : s.Writable) (calls : List FileCall) :
    ∀ answer ∈ answersOf (FileCall.perform path) s calls, ∀ error, answer ≠ .error (.file error) := by
  induction calls generalizing s j with
  | nil => nofun
  | cons c calls ih =>
    obtain ⟨answer, next, again⟩ := (keepsJournal path).perform ⟨h, writable⟩ c.call
    simp only [answersOf, FileCall.perform, FileCall.opened_eq h.path]
    intro other there error
    rcases List.mem_cons.1 there with rfl | later
    · rw [answer]
      exact c.call.enter_ne_file j error
    · exact ih next again other later error

end FileStore

/-- A store in memory and one whose file is missing or blank when it is opened give the same answers to the
same calls as long as no step on the file fails: those of a journal. It makes no difference when the file is
opened anew. -/
theorem stores_agree (path : String) (directory : Directory)
    (blank : directory.readText path = .error .notFound ∨
      ∃ text, directory.readText path = .ok text ∧ (Text.trim text.toList).isEmpty = true)
    (calls : List FileCall)
    (works : ∀ answer ∈ answersOf (FileCall.perform path) ⟨path, directory⟩ calls,
      ∀ error, answer ≠ .error (.file error)) :
    answersOf (FileCall.perform path) ⟨path, directory⟩ calls =
        answersOf StoreCall.enter .empty (calls.map (·.call)) ∧
      answersOf StoreCall.perform Components.empty (calls.map (·.call)) =
        answersOf StoreCall.enter .empty (calls.map (·.call)) :=
  ⟨(FileStore.Holds.ofBlank blank).answers calls works, Components.keepsJournal.answers .empty _⟩

/-- The calls that a store in a file is tried with: texts with quotes and line breaks are made, replaced and
read, one of them under an identifier that is unknown, and the file is opened anew between them. -/
def trialCalls : List FileCall := [
  ⟨false, .read "a"⟩, ⟨true, .create "a" "<p title=\"x\">\n</p>"⟩, ⟨true, .update "b" "none"⟩,
  ⟨false, .create "\"b\\" ""⟩, ⟨true, .update "a" "\u0007é"⟩, ⟨true, .read "a"⟩]

theorem stores_agree_trialCalls :
    answersOf (FileCall.perform "out/store.json") ⟨"out/store.json", .empty⟩ trialCalls =
        answersOf StoreCall.enter .empty (trialCalls.map (·.call)) ∧
      answersOf StoreCall.perform Components.empty (trialCalls.map (·.call)) =
        answersOf StoreCall.enter .empty (trialCalls.map (·.call)) :=
  stores_agree "out/store.json" .empty (.inl (by decide +kernel)) trialCalls
    ((FileStore.Holds.ofBlank (.inl (by decide +kernel))).works (by decide +kernel) trialCalls)

end MarkupEditor
