import MarkupEditor.Proofs.Store.Files
import MarkupEditor.Server.Routes

set_option autoImplicit false

namespace MarkupEditor

/-- What a body carries: itself, or if JSON is announced the string that it is, or the last member `value` of
the object that it is if that is a string. -/
inductive Carries (contentType : Option String) (body : String) : String → Prop where
  | text (plain : contentType.any announcesJson = false) : Carries contentType body body
  | string {markup : String} (json : contentType.any announcesJson = true)
    (read : Json.readAll body.toList = some (.string markup)) : Carries contentType body markup
  | member {members : List (String × Json)} {markup : String}
    (json : contentType.any announcesJson = true)
    (read : Json.readAll body.toList = some (.object members))
    (value : Json.lastOf? "value" members = some (.string markup)) : Carries contentType body markup

theorem carriedBy_eq_some {value : Json} {markup : String} :
    carriedBy value = some markup ↔ value = .string markup ∨
      ∃ members, value = .object members ∧ Json.lastOf? "value" members = some (.string markup) := by
  cases value with
  | string text => simp [carriedBy]
  | object members =>
    simp only [carriedBy, Option.bind_eq_some_iff, reduceCtorEq, false_or, Json.object.injEq,
      exists_eq_left']
    constructor
    · rintro ⟨member, last, text⟩
      cases member <;> cases text
      exact last
    · exact fun last => ⟨_, last, rfl⟩
  | null | bool | number | array | unreadable => simp [carriedBy]

theorem carried_eq_some {contentType : Option String} {body markup : String} :
    carried contentType body = .ok (some markup) ↔ Carries contentType body markup := by
  unfold carried
  cases announced : contentType.any announcesJson with
  | false =>
    simp only [Bool.false_eq_true, if_false, Except.ok.injEq, Option.some.injEq]
    constructor
    · rintro rfl
      exact .text announced
    · rintro (plain | ⟨json, -⟩ | ⟨json, -, -⟩)
      · rfl
      all_goals
        rw [announced] at json
        cases json
  | true =>
    simp only [if_true]
    cases read : Json.readAll body.toList with
    | none =>
      refine ⟨nofun, ?_⟩
      rintro (plain | ⟨-, there⟩ | ⟨-, there, -⟩)
      · rw [announced] at plain
        cases plain
      all_goals
        rw [read] at there
        cases there
    | some value =>
      simp only [Except.ok.injEq, carriedBy_eq_some]
      constructor
      · rintro (rfl | ⟨members, rfl, last⟩)
        · exact .string announced read
        · exact .member announced read last
      · rintro (plain | ⟨-, there⟩ | ⟨-, there, last⟩)
        · rw [announced] at plain
          cases plain
        · exact .inl (Option.some.inj (read.symm.trans there))
        · exact .inr ⟨_, Option.some.inj (read.symm.trans there), last⟩

namespace Request

def Carries (r : Request) (markup : String) : Prop :=
  MarkupEditor.Carries (r.header? "content-type") r.body markup

theorem markup_cases (r : Request) :
    (∃ markup, r.markup = .ok markup ∧ r.Carries markup ∧ markup ≠ "") ∨
      ∃ error, r.markup = .error error ∧ error.status = 400 ∧ ∀ markup, r.Carries markup → markup = "" := by
  have carries (markup : String) : r.Carries markup ↔
      carried (r.header? "content-type") r.body = .ok (some markup) := carried_eq_some.symm
  simp only [carries, Request.markup, bodyMarkup]
  cases found : carried (r.header? "content-type") r.body with
  | error error =>
    have bad : error.status = 400 := by
      unfold carried at found
      split at found
      · split at found
        · cases found
        · obtain rfl := Except.error.inj found
          rfl
      · cases found
    exact .inr ⟨error, rfl, bad, nofun⟩
  | ok carried =>
    cases carried with
    | none => exact .inr ⟨.missingBody, rfl, rfl, nofun⟩
    | some markup =>
      by_cases empty : markup = ""
      · refine .inr ⟨.missingBody, if_pos empty, rfl, fun other same => ?_⟩
        rw [← Option.some.inj (Except.ok.inj same), empty]
      · exact .inl ⟨markup, if_neg empty, rfl, empty⟩

end Request

/-- What a request asks for. -/
inductive Ask where
  | make
  | replace (id : String)
  | preview (id : String)

/-- Requests by their method and path. A piece of a path names an identifier if it stands for a text. -/
inductive Asks : Request → Ask → Prop where
  | make (headers : List (String × String)) (body : String) :
    Asks ⟨"POST", "/component".toList, headers, body⟩ .make
  | replace {piece : List Char} {id : String} (named : piece ≠ []) (one : '/' ∉ piece)
    (names : Target.decode? piece = some id) (headers : List (String × String)) (body : String) :
    Asks ⟨"PUT", "/component/".toList ++ piece, headers, body⟩ (.replace id)
  | preview {piece : List Char} {id : String} (named : piece ≠ []) (one : '/' ∉ piece)
    (names : Target.decode? piece = some id) (headers : List (String × String)) (body : String) :
    Asks ⟨"GET", "/preview/".toList ++ piece, headers, body⟩ (.preview id)

/-- What a map from identifiers to markups answers to a request, and the map after it, the map being given by
the writes that were done. -/
inductive Answers (j : Journal) (r : Request) (newId : String) : Ask → Response → Journal → Prop where
  | refused {ask : Ask} {response : Response} (writes : ∀ id, ask ≠ .preview id)
    (nothing : ∀ markup, r.Carries markup → markup = "") (status : response.status = 400) :
    Answers j r newId ask response j
  | made {markup : String} {response : Response} (carries : r.Carries markup) (visible : markup ≠ "")
    (status : response.status = 200)
    (body : Json.readAll response.body.toList = some (.ofStrings [("id", newId)])) :
    Answers j r newId .make response (j.write newId markup)
  | unknown {id markup : String} {response : Response} (carries : r.Carries markup) (visible : markup ≠ "")
    (missing : j.get? id = none) (status : response.status = 404) :
    Answers j r newId (.replace id) response j
  | replaced {id markup : String} {response : Response} (carries : r.Carries markup) (visible : markup ≠ "")
    (known : (j.get? id).isSome = true) (status : response.status = 200)
    (body : Json.readAll response.body.toList = some (.ofStrings [("id", id), ("value", markup)])) :
    Answers j r newId (.replace id) response (j.write id markup)
  | absent {id : String} {response : Response} (missing : j.get? id = none)
    (status : response.status = 404) : Answers j r newId (.preview id) response j
  | shown {id markup : String} {response : Response} (stored : j.get? id = some markup)
    (status : response.status = 200) (body : response.body = markup) :
    Answers j r newId (.preview id) response j

namespace Route

theorem pieces_eq {word piece : List Char} (whole : '/' ∉ word) (one : '/' ∉ piece) :
    (Text.splitAll '/' ('/' :: (word ++ '/' :: piece))).map String.ofList =
      ["", String.ofList word, String.ofList piece] := by
  have first : Text.splitAll '/' ('/' :: (word ++ '/' :: piece)) =
      [] :: Text.splitAll '/' (word ++ '/' :: piece) := if_pos rfl
  rw [first, Text.splitAll_append_cut, Text.splitAll_of_not_mem whole, Text.splitAll_of_not_mem one]
  rfl

theorem ofPath?_component {piece : List Char} (named : piece ≠ []) (one : '/' ∉ piece) :
    ofPath? ("/component/".toList ++ piece) = some (.component piece) := by
  have path : "/component/".toList ++ piece = '/' :: ("component".toList ++ '/' :: piece) := rfl
  rw [ofPath?, path, pieces_eq (by decide) one]
  simp [named]

theorem ofPath?_preview {piece : List Char} (named : piece ≠ []) (one : '/' ∉ piece) :
    ofPath? ("/preview/".toList ++ piece) = some (.preview piece) := by
  have path : "/preview/".toList ++ piece = '/' :: ("preview".toList ++ '/' :: piece) := rfl
  rw [ofPath?, path, pieces_eq (by decide) one]
  simp [named]

end Route

namespace Server

variable {σ : Type} [ComponentStore σ] {holds : σ → Journal → Prop} {store : σ} {j : Journal}
  {r : Request} {ask : Ask}

theorem answer_of_route {route : Route} (routed : Route.ofPath? r.path = some route)
    (served : route.methods.contains r.method = true) (plain : r.method ≠ "OPTIONS") (whole : r.method ≠ "HEAD")
    (store : σ) (newId : String) :
    ∃ headers, answer store r newId = ⟨(answerRoute store r newId route).store,
      (answerRoute store r newId route).response.withHeaders headers⟩ := by
  rw [answer, if_neg plain, dispatch, routed]
  simp only [served, if_true, if_neg whole]
  exact ⟨_, rfl⟩

theorem answer_of_asks (h : Asks r ask) (store : σ) (newId : String) :
    ∃ headers, answer store r newId =
      let handled := match ask with
        | .make => create store r newId
        | .replace id => update store r id
        | .preview id => ⟨store, preview store id⟩
      ⟨handled.store, handled.response.withHeaders headers⟩ := by
  cases h with
  | make headers body =>
    have routed : Route.ofPath? "/component".toList = some .components := rfl
    exact answer_of_route (r := ⟨"POST", _, headers, body⟩) routed rfl (by simp) (by simp) store newId
  | replace named one names headers body =>
    obtain ⟨added, same⟩ := answer_of_route (r := ⟨"PUT", _, headers, body⟩)
      (Route.ofPath?_component named one) rfl (by simp) (by simp) store newId
    refine ⟨added, same.trans ?_⟩
    simp only [answerRoute, names]
  | preview named one names headers body =>
    obtain ⟨added, same⟩ := answer_of_route (r := ⟨"GET", _, headers, body⟩)
      (Route.ofPath?_preview named one) rfl (by simp) (by simp) store newId
    refine ⟨added, same.trans ?_⟩
    simp only [answerRoute, names]

theorem readAll_json (status : Nat) (entries : List (String × String)) (headers : List (String × String)) :
    Json.readAll ((Response.json status (.ofStrings entries)).withHeaders headers).body.toList =
      some (.ofStrings entries) :=
  Json.readAll_print_strings entries

theorem create_answers (keeps : KeepsJournal holds) (held : holds store j) (r : Request) (newId : String)
    (headers : List (String × String)) :
    ∃ next, Answers j r newId .make ((create store r newId).response.withHeaders headers) next ∧
      holds (create store r newId).store next := by
  rcases r.markup_cases with ⟨markup, read, carries, visible⟩ | ⟨error, read, bad, nothing⟩
  · obtain ⟨answer, next⟩ := keeps.create held newId markup
    refine ⟨_, .made carries visible ?_ ?_, ?_⟩
    all_goals simp only [create, read, answer]
    · rfl
    · exact readAll_json 200 [("id", newId)] headers
    · exact next
  · refine ⟨j, .refused nofun nothing ?_, ?_⟩
    all_goals simp only [create, read]
    · exact bad
    · exact held

theorem update_answers (keeps : KeepsJournal holds) (held : holds store j) (r : Request) (newId id : String)
    (headers : List (String × String)) :
    ∃ next, Answers j r newId (.replace id) ((update store r id).response.withHeaders headers) next ∧
      holds (update store r id).store next := by
  rcases r.markup_cases with ⟨markup, read, carries, visible⟩ | ⟨error, read, bad, nothing⟩
  · cases known : j.get? id with
    | none =>
      refine ⟨j, .unknown carries visible known ?_, ?_⟩
      all_goals simp only [update, read, keeps.unknown held id markup known]
      · rfl
      · exact held
    | some old =>
      have there : (j.get? id).isSome = true := by rw [known]; rfl
      obtain ⟨answer, next⟩ := keeps.update held id markup there
      refine ⟨_, .replaced carries visible there ?_ ?_, ?_⟩
      all_goals simp only [update, read, answer]
      · rfl
      · exact readAll_json 200 [("id", id), ("value", markup)] headers
      · exact next
  · refine ⟨j, .refused nofun nothing ?_, ?_⟩
    all_goals simp only [update, read]
    · exact bad
    · exact held

theorem preview_answers (keeps : KeepsJournal holds) (held : holds store j) (r : Request) (newId id : String)
    (headers : List (String × String)) :
    Answers j r newId (.preview id) ((preview store id).withHeaders headers) j := by
  have read := keeps.read held id
  cases stored : j.get? id with
  | none =>
    refine .absent stored ?_
    simp only [preview, read, stored]
    rfl
  | some markup =>
    refine .shown stored ?_ ?_
    all_goals
      simp only [preview, read, stored]
      rfl

theorem answer_answers (keeps : KeepsJournal holds) (held : holds store j) (asks : Asks r ask)
    (newId : String) :
    ∃ next, Answers j r newId ask (answer store r newId).response next ∧
      holds (answer store r newId).store next := by
  obtain ⟨headers, same⟩ := answer_of_asks asks store newId
  rw [same]
  cases ask with
  | make => exact create_answers keeps held r newId headers
  | replace id => exact update_answers keeps held r newId id headers
  | preview id => exact ⟨j, preview_answers keeps held r newId id headers, held⟩

def serve (store : σ) (request : Request × String) : σ × Response :=
  ((answer store request.1 request.2).store, (answer store request.1 request.2).response)

end Server

/-- What a map answers to requests one after the other, and the map after them. -/
inductive Serves : Journal → List (Request × String) → List Response → Journal → Prop where
  | nil (j : Journal) : Serves j [] [] j
  | cons {j next last : Journal} {r : Request} {newId : String} {ask : Ask} {response : Response}
    {requests : List (Request × String)} {responses : List Response} (asks : Asks r ask)
    (first : Answers j r newId ask response next) (rest : Serves next requests responses last) :
    Serves j ((r, newId) :: requests) (response :: responses) last

/-- No empty markup is entered. -/
theorem Answers.visible {j next : Journal} {r : Request} {newId : String} {ask : Ask} {response : Response}
    (h : Answers j r newId ask response next) (visible : ∀ entry ∈ j.writes, entry.2 ≠ "") :
    ∀ entry ∈ next.writes, entry.2 ≠ "" := by
  cases h with
  | refused | unknown | absent | shown => exact visible
  | made carries some | replaced carries some =>
    intro entry there
    rcases List.mem_append.1 there with there | there
    · exact visible entry there
    · rw [List.mem_singleton.1 there]
      exact some

theorem Serves.visible {j last : Journal} {requests : List (Request × String)} {responses : List Response}
    (h : Serves j requests responses last) (visible : ∀ entry ∈ j.writes, entry.2 ≠ "") :
    ∀ entry ∈ last.writes, entry.2 ≠ "" := by
  induction h with
  | nil => exact visible
  | cons asks first rest ih => exact ih (first.visible visible)

theorem Server.exists_serves {σ : Type} [ComponentStore σ] {holds : σ → Journal → Prop}
    (keeps : KeepsJournal holds) {store : σ} {j : Journal} (held : holds store j)
    (requests : List (Request × String)) (asked : ∀ request ∈ requests, ∃ ask, Asks request.1 ask) :
    ∃ last, Serves j requests (answersOf Server.serve store requests) last ∧
      holds (requests.foldl (fun store request => (Server.serve store request).1) store) last := by
  induction requests generalizing store j with
  | nil => exact ⟨j, .nil j, held⟩
  | cons request requests ih =>
    obtain ⟨ask, asks⟩ := asked request List.mem_cons_self
    obtain ⟨next, first, holdsNext⟩ := answer_answers keeps held asks request.2
    obtain ⟨last, rest, holdsLast⟩ := ih holdsNext fun other there =>
      asked other (List.mem_cons_of_mem _ there)
    exact ⟨last, .cons asks first rest, holdsLast⟩

/-- Requests that make, replace and show components, to a server whose store is empty when it begins, are
answered as by a map from identifiers to markups, and what is stored in the end is what the map has. No
identifier ever has an empty markup. -/
theorem routes_serve_map {σ : Type} [ComponentStore σ] {holds : σ → Journal → Prop}
    (keeps : KeepsJournal holds) {store : σ} (held : holds store .empty)
    (requests : List (Request × String)) (asked : ∀ request ∈ requests, ∃ ask, Asks request.1 ask) :
    ∃ last : Journal, Serves .empty requests (answersOf Server.serve store requests) last ∧
      ∀ id, ComponentStore.read
          (requests.foldl (fun store request => (Server.serve store request).1) store) id =
            .ok (last.get? id) ∧
        last.get? id ≠ some "" := by
  obtain ⟨last, serves, holdsLast⟩ := Server.exists_serves keeps held requests asked
  refine ⟨last, serves, fun id => ⟨keeps.read holdsLast id, fun empty => ?_⟩⟩
  exact serves.visible nofun (id, "") (Journal.mem_writes_of_get? empty) rfl

/-- A component is made from a plain body and replaced from one in JSON, its identifier being written with an
escape; a body without markup and an unknown identifier come between. -/
def trialRequests : List (Request × String) := [
  (⟨"POST", "/component".toList, [("content-type", "text/plain")], "<p/>"⟩, "c-1"),
  (⟨"PUT", "/component/".toList ++ "c%2D1".toList, [("content-type", "application/json")],
    "\x7b\"value\": \"<b/>\"\x7d"⟩, ""),
  (⟨"PUT", "/component/".toList ++ "c-1".toList, [("content-type", "application/json")], "[]"⟩, ""),
  (⟨"PUT", "/component/".toList ++ "c-2".toList, [], "<i/>"⟩, ""),
  (⟨"GET", "/preview/".toList ++ "c-1".toList, [], ""⟩, "")]

theorem routes_serve_map_trialRequests :
    ∃ last : Journal, Serves .empty trialRequests
        (answersOf Server.serve (FileStore.mk "store.json" .empty) trialRequests) last ∧
      last.get? "c-1" = some "<b/>" ∧ last.get? "c-2" = none := by
  have held : FileStore.Holds "store.json" ⟨"store.json", .empty⟩ .empty ∧
      FileStore.Writable ⟨"store.json", .empty⟩ := ⟨.ofBlank (.inl (by decide +kernel)), by decide +kernel⟩
  have asked : ∀ request ∈ trialRequests, ∃ ask, Asks request.1 ask := by
    simp only [trialRequests, List.forall_mem_cons, List.not_mem_nil, false_imp_iff, implies_true, and_true]
    exact ⟨⟨_, .make _ _⟩, ⟨_, .replace (by simp) (by decide) (by decide +kernel : _ = some "c-1") _ _⟩,
      ⟨_, .replace (by simp) (by decide) (by decide +kernel : _ = some "c-1") _ _⟩,
      ⟨_, .replace (by simp) (by decide) (by decide +kernel : _ = some "c-2") _ _⟩,
      ⟨_, .preview (by simp) (by decide) (by decide +kernel : _ = some "c-1") _ _⟩⟩
  obtain ⟨last, serves, reads⟩ :=
    routes_serve_map (FileStore.keepsJournal "store.json") held trialRequests asked
  refine ⟨last, serves, ?_, ?_⟩
  · exact Except.ok.inj ((reads "c-1").1.symm.trans (by decide +kernel))
  · exact Except.ok.inj ((reads "c-2").1.symm.trans (by decide +kernel))

end MarkupEditor
