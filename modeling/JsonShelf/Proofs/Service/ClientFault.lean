import JsonShelf.Proofs.Path.Grammar
import JsonShelf.Proofs.Service.Orderly

/-!
# Faults of clients

What a client does wrong should be refused, and what was stored should be answered. Four things in
what the service does get in the way of this, and each of them ends in an internal error:

* a body may hold infinities or no numbers, which are stored, but have no JSON text to be answered
  with;
* a body may hold half of a surrogate pair, which cannot be stored in UTF-8;
* an integer, in a body or in a path, may have more digits than are read;
* a file name may be too long as a path, although each of its names is short.

Apart from the limits of the machine these four are all. The first one shows in a later request
only, so it is asked of the requests before that the numbers they put are finite; the tree is
orderly then. In an orderly tree a request without the other three is never answered with an
internal error.

What a machine runs out of is outside of this. Reading, printing and making directories are
recursive, and where calls can be nested to a certain depth only, a service fails on values nested
about as deep, and on a file name with about as many directories that are still missing. The depth
is set by the machine and by what has called the service, and not by the service.

## Main definitions

* `Service.Request.Plain`, `Service.Request.Fits` — requests, and those without the other three
* `Service.StartsFrom`, `Service.Request.Leads` — documents, and paths that can be followed in them

## Main results

* `Service.Orderly.status_mem` — no internal errors in orderly trees
* `Service.client_faults_refused` — how requests are answered after any others
* `Service.not_all_client_faults_refused` — what the four things come to
-/

namespace JsonShelf

/-! ### Documents in UTF-8 -/

/-- Settings that store documents in UTF-8. -/
def Settings.utf8 (indent : Option Int) : Settings := ⟨indent, Text.ofString "utf-8"⟩

theorem Settings.uses_utf8 (indent : Option Int) : (utf8 indent).Uses (.plain .utf8) :=
  Settings.uses_name indent _ (List.mem_cons_self ..)

theorem Document.exists_print_of_storable (indent : Option Int) {v : Json} (h : v.Storable) :
    ∃ content, Document.print (.utf8 indent) v = .ok content := by
  obtain ⟨content, hcontent⟩ :=
    (Json.storable_iff_exists_encode (Json.Style.plain_file indent) h.wellFormed).1 h
  refine ⟨content, ?_⟩
  rw [Document.print_of_uses (Settings.uses_utf8 indent)]
  exact mapError_eq_ok_iff.2 hcontent

namespace Service

open Document (StandsFor lookUp)

variable {settings : Settings} {indent : Option Int} {t : FileTree} {r : Request}
  {root : Option Json}

/-! ### Requests -/

/-- The requests that clients make of the service: under names without a NUL that file systems take
one by one, and with a path in Unicode. -/
structure Request.Plain (r : Request) : Prop where
  method : r.method ≠ .other
  nul : ¬ r.file.HasNul
  size : ∀ name ∈ FilePath.namesOf r.file, FileTree.nameSize name ≤ FileTree.nameLimit
  path : ∀ c ∈ r.path, ¬ c.IsSurrogate

instance (r : Request) : Decidable r.Plain :=
  decidable_of_iff
    (r.method ≠ .other ∧ ¬ r.file.HasNul ∧
      (∀ name ∈ FilePath.namesOf r.file, FileTree.nameSize name ≤ FileTree.nameLimit) ∧
      ∀ c ∈ r.path, ¬ c.IsSurrogate)
    ⟨fun ⟨hmethod, hnul, hsize, hpath⟩ => ⟨hmethod, hnul, hsize, hpath⟩,
      fun h => ⟨h.method, h.nul, h.size, h.path⟩⟩

/-- A request fits the limits of what the service is built on: no path in the file system is too
long, no integer has too many digits, and what is put has a text in UTF-8. -/
structure Request.Fits (r : Request) : Prop where
  location : FileTree.pathSize (location r.file) ≤ FileTree.pathLimit
  indexes : ∀ count, Path.parse r.path ≠ .error (.tooManyDigits count)
  integers : r.method = .put → ∀ count, Body.read r.body ≠ .error (.tooManyDigits count)
  text : r.method = .put → ∀ v, Body.read r.body = .ok v →
    ∃ bytes, (Encoding.plain .utf8).encode (v.print Json.Style.compact) = .ok bytes

theorem Request.Plain.takes (hplain : r.Plain) (hfits : r.Fits) (haddress : Addresses r.file) :
    FileTree.Takes (Service.location r.file) :=
  takes_location haddress hplain.nul hplain.size hfits.location

theorem Request.Fits.storable (h : r.Fits) (hmethod : r.method = .put) {v : Json}
    (hv : Body.read r.body = .ok v) : v.Storable :=
  (Json.storable_iff_exists_encode Json.Style.plain_compact (Body.wellFormed_of_read hv)).2
    (h.text hmethod v hv)

/-- The document that a request starts from: the one that is stored or, for a put to a file that is
missing, an empty object. -/
inductive StartsFrom (s : Service) (t : FileTree) (r : Request) : Json → Prop
  | stored {root : Json} (h : s.shelf.load t r.file [] = .ok root) : StartsFrom s t r root
  | missing (hmethod : r.method = .put) (h : s.shelf.load t r.file [] = .error (.file .notFound)) :
    StartsFrom s t r (.obj [])

/-- The path of a request leads somewhere in a document: to a value or, for a put, to a place where
one can be put. -/
def Request.Leads (r : Request) (root : Json) : Prop :=
  ∃ p, Path.parse r.path = .ok p ∧
    if r.method = .put then ∃ v : Json, (root.write p v).done else (root.get? p).isSome

/-! ### Paths in a document -/

/-- Without too many digits, an expression writes a path or an invalid one. -/
theorem path_cases (h : ∀ count, Path.parse r.path ≠ .error (.tooManyDigits count)) :
    (∃ p, Path.parse r.path = .ok p ∧ Document.path r.path = .ok p) ∨
      Document.path r.path = .error .invalidPath := by
  rw [Document.path]
  cases hparse : Path.parse r.path with
  | ok p => exact .inl ⟨p, rfl, rfl⟩
  | error fault =>
    cases fault with
    | malformed => exact .inr rfl
    | tooManyDigits count => exact absurd hparse (h count)

theorem lookUp_of_get? {d v : Json} {p : Path} (hp : Path.parse r.path = .ok p)
    (hv : d.get? p = some v) : lookUp (some d) r.path = .ok v := by
  have hpath : Document.path r.path = .ok p := mapError_eq_ok_iff.2 hp
  simp only [lookUp, hpath, hv, Option.elim_some]

theorem lookUp_of_not_get? {d : Json}
    (hdigits : ∀ count, Path.parse r.path ≠ .error (.tooManyDigits count))
    (h : ∀ p, Path.parse r.path = .ok p → d.get? p = none) :
    lookUp (some d) r.path = .error .invalidPath := by
  rcases path_cases hdigits with ⟨p, hparse, hpath⟩ | hpath
  · simp only [lookUp, hpath, h p hparse, Option.elim_none]
  · simp only [lookUp, hpath]

/-! ### Answers to gets -/

theorem Response.ofValue_of_storable {v : Json} (hfinite : v.allFinite) (hv : v.Storable) :
    (ofValue v).status = 200 ∧ Json.readDocument (ofValue v).body = .ok v := by
  obtain ⟨bytes, hbytes⟩ :=
    (Json.storable_iff_exists_encode Json.Style.plain_compact hv.wellFormed).1 hv
  rw [ofValue, if_pos hfinite]
  simp only [hbytes]
  exact ⟨rfl, Json.readDocument_print Json.Style.plain_compact hv.wellFormed⟩

/-- A get to a missing document is answered 404. -/
theorem Finds.status_get_missing (h : Finds settings t r.file none) (haddress : Addresses r.file) :
    ((ofSettings settings).get t r).status = 404 := by
  rw [get, if_pos haddress, h.load]
  rfl

/-- A value in a document is answered. -/
theorem Finds.get_of_get? {d v : Json} {p : Path} (h : Finds settings t r.file (some d))
    (haddress : Addresses r.file) (hp : Path.parse r.path = .ok p) (hv : d.get? p = some v) :
    ((ofSettings settings).get t r).status = 200 ∧
      Json.readDocument ((ofSettings settings).get t r).body = .ok v := by
  rw [get, if_pos haddress, h.load, lookUp_of_get? hp hv]
  exact Response.ofValue_of_storable (Json.hereditary_allFinite.get? h.finite hv)
    (Json.hereditary_storable.get? h.storable hv)

/-- A get to nothing in a document is answered 400. -/
theorem Finds.status_get_of_not_get? {d : Json} (h : Finds settings t r.file (some d))
    (haddress : Addresses r.file)
    (hdigits : ∀ count, Path.parse r.path ≠ .error (.tooManyDigits count))
    (hnone : ∀ p, Path.parse r.path = .ok p → d.get? p = none) :
    ((ofSettings settings).get t r).status = 400 := by
  rw [get, if_pos haddress, h.load, lookUp_of_not_get? hdigits hnone]
  rfl

/-- A get to a document that something is in the way of is answered 400. -/
theorem Blocked.status_get (h : Blocked settings t r.file) (haddress : Addresses r.file) :
    ((ofSettings settings).get t r).status = 400 := by
  obtain ⟨fault, rfl | rfl, hload⟩ := h.load r.path
  · rw [get, if_pos haddress, hload]
    rfl
  · rw [get, if_pos haddress, hload]
    rfl

/-! ### Answers to puts -/

section

variable {v : Json}

/-- A put whose body can be read is answered as the shelf takes the value. -/
theorem put_of_read {s : Service} (haddress : Addresses r.file) (hv : Body.read r.body = .ok v) :
    (s.put t r).2 = (s.shelf.write t r.file r.path v).error.elim .noContent .ofError := by
  rw [put, hv]
  simp only [if_pos haddress]
  cases (s.shelf.write t r.file r.path v).error <;> rfl

/-- A value that has its place in the document is put there: the document can be stored, and no name
is too long. -/
theorem Finds.status_put_of_done (h : Finds (.utf8 indent) t r.file root) (hplain : r.Plain)
    (hfits : r.Fits) (hmethod : r.method = .put) (haddress : Addresses r.file)
    (hv : Body.read r.body = .ok v) {p : Path} (hp : Path.parse r.path = .ok p)
    (hdone : ((root.getD (.obj [])).write p v).done) :
    ((ofSettings (.utf8 indent)).put t r).2.status = 204 := by
  obtain ⟨content, hcontent, hstands⟩ := h.content
  have hnames : ∀ name, .key name ∈ p → ∀ c ∈ name, ¬ c.IsSurrogate := by
    intro name hname c hc
    exact hplain.path c (Path.subset_of_key_mem hp hname hc)
  obtain ⟨bytes, hbytes⟩ := Document.exists_print_of_storable indent
    (Json.hereditary_storable.write h.storable hnames (hfits.storable hmethod hv))
  have hwrite : Document.write (.utf8 indent) content r.path v = .ok bytes := by
    rw [Document.write_of_standsFor hstands (mapError_eq_ok_iff.2 hp), if_pos hdone, hbytes]
  have hfault : (t.write (location r.file) bytes).fault = none :=
    (fault_eq_none_or_of_content haddress hcontent bytes).resolve_right
      fun hlong => hlong.1 (hplain.takes hfits haddress)
  rw [put_of_read haddress hv, Shelf.write_of_document hcontent hwrite,
    resolve_of_addresses _ haddress, hfault]
  rfl

/-- A value that has no place in the document is refused. -/
theorem Finds.status_put_of_not_done (h : Finds settings t r.file root)
    (haddress : Addresses r.file) (hv : Body.read r.body = .ok v)
    (hdigits : ∀ count, Path.parse r.path ≠ .error (.tooManyDigits count))
    (hnone : ∀ p, Path.parse r.path = .ok p → ¬ ((root.getD (.obj [])).write p v).done) :
    ((ofSettings settings).put t r).2.status = 400 := by
  obtain ⟨content, hcontent, hstands⟩ := h.content
  have hwrite : Document.write settings content r.path v = .error .invalidPath := by
    rcases path_cases hdigits with ⟨p, hparse, hpath⟩ | hpath
    · rw [Document.write_of_standsFor hstands hpath, if_neg (hnone p hparse)]
    · exact Document.write_of_path_error hstands hpath v
  rw [put_of_read haddress hv, Shelf.write_of_document_error hcontent hwrite]
  rfl

/-- Too many digits in a path are an internal error. -/
theorem Finds.status_put_of_tooManyDigits (h : Finds settings t r.file root)
    (haddress : Addresses r.file) (hv : Body.read r.body = .ok v) {count : Nat}
    (hp : Path.parse r.path = .error (.tooManyDigits count)) :
    ((ofSettings settings).put t r).2.status = 500 := by
  obtain ⟨content, hcontent, hstands⟩ := h.content
  have hpath : Document.path r.path = .error (.tooManyDigits count) :=
    mapError_eq_error_iff.2 ⟨_, hp, rfl⟩
  rw [put_of_read haddress hv,
    Shelf.write_of_document_error hcontent (Document.write_of_path_error hstands hpath v)]
  rfl

/-- A put to a document that something is in the way of is answered 400. -/
theorem Blocked.status_put (h : Blocked settings t r.file) (haddress : Addresses r.file)
    (hv : Body.read r.body = .ok v) :
    ((ofSettings settings).put t r).2.status = 400 := by
  obtain ⟨fault, hfault, hcontent⟩ := h
  have hwrite : (ofSettings settings).shelf.write t r.file r.path v =
      ⟨t, some (.file fault)⟩ := by
    rw [Shelf.write, hcontent]
    rfl
  rw [put_of_read haddress hv, hwrite]
  rcases hfault with rfl | rfl
  · rfl
  · rfl

end

/-- A put whose body cannot be read is answered 422. -/
theorem status_put_of_read_error {s : Service} {e : Body.ReadError}
    (he : Body.read r.body = .error e)
    (hdigits : ∀ count, Body.read r.body ≠ .error (.tooManyDigits count)) :
    (s.put t r).2.status = 422 := by
  rw [put, he]
  cases e with
  | undecodable u => rfl
  | malformed defect => rfl
  | tooManyDigits count => exact absurd he (hdigits count)

/-! ### Any answer -/

theorem answer_of_get {s : Service} (hmethod : r.method = .get) :
    s.answer t r = (t, s.get t r) := by
  rw [answer, hmethod]

theorem answer_of_put {s : Service} (hmethod : r.method = .put) : s.answer t r = s.put t r := by
  rw [answer, hmethod]

theorem status_of_not_addresses {s : Service} (hmethod : r.method ≠ .other)
    (hbody : r.method = .put → ∃ v, Body.read r.body = .ok v) (h : ¬ Addresses r.file) :
    (s.answer t r).2.status = 400 := by
  cases hr : r.method with
  | get =>
    rw [answer_of_get hr, get, if_neg h]
    rfl
  | put =>
    obtain ⟨v, hv⟩ := hbody hr
    rw [answer_of_put hr, put, hv]
    simp only [if_neg h]
    rfl
  | other => exact absurd hr hmethod

theorem Blocked.status_answer (h : Blocked settings t r.file) (hmethod : r.method ≠ .other)
    (hbody : r.method = .put → ∃ v, Body.read r.body = .ok v) (haddress : Addresses r.file) :
    ((ofSettings settings).answer t r).2.status = 400 := by
  cases hr : r.method with
  | get =>
    rw [answer_of_get hr]
    exact h.status_get haddress
  | put =>
    obtain ⟨v, hv⟩ := hbody hr
    rw [answer_of_put hr]
    exact h.status_put haddress hv
  | other => exact absurd hr hmethod

/-- A request that finds its document starts from it. -/
theorem Finds.eq_of_startsFrom (h : Finds settings t r.file root) {d : Json}
    (hstart : StartsFrom (ofSettings settings) t r d) :
    root.getD (.obj []) = d ∧ (r.method ≠ .put → root = some d) := by
  cases hstart with
  | stored hload =>
    rw [h.load, lookUp_nil] at hload
    cases root with
    | none => cases hload
    | some d' =>
      cases hload
      exact ⟨rfl, fun _ => rfl⟩
  | missing hmethod hload =>
    rw [h.load, lookUp_nil] at hload
    cases root with
    | none => exact ⟨rfl, fun hne => absurd hmethod hne⟩
    | some d' => cases hload

/-- **A path that cannot be followed is refused.** -/
theorem Orderly.status_of_not_leads (h : Orderly settings t) (hplain : r.Plain) (hfits : r.Fits)
    {d : Json} (hstart : StartsFrom (ofSettings settings) t r d) (hleads : ¬ r.Leads d)
    (hbody : r.method = .put → ∃ v, Body.read r.body = .ok v) :
    ((ofSettings settings).answer t r).2.status = 400 := by
  by_cases haddress : Addresses r.file
  · rcases h.finds_or_blocked haddress (hplain.takes hfits haddress) with ⟨root, hfinds⟩ | hblocked
    · obtain ⟨hroot, hstored⟩ := hfinds.eq_of_startsFrom hstart
      cases hr : r.method with
      | get =>
        have hget : r.method ≠ .put := by rw [hr]; exact nofun
        rw [hstored hget] at hfinds
        rw [answer_of_get hr]
        refine hfinds.status_get_of_not_get? haddress hfits.indexes ?_
        intro p hp
        rw [← Option.not_isSome_iff_eq_none]
        exact fun hsome => hleads ⟨p, hp, by rwa [if_neg hget]⟩
      | put =>
        obtain ⟨v, hv⟩ := hbody hr
        rw [answer_of_put hr]
        refine hfinds.status_put_of_not_done haddress hv hfits.indexes ?_
        intro p hp hdone
        rw [hroot] at hdone
        exact hleads ⟨p, hp, by rw [if_pos hr]; exact ⟨v, hdone⟩⟩
      | other => exact absurd hr hplain.method
    · exact hblocked.status_answer hplain.method hbody haddress
  · exact status_of_not_addresses hplain.method hbody haddress

theorem Finds.status_get_mem (h : Finds settings t r.file root) (hfits : r.Fits)
    (haddress : Addresses r.file) :
    ((ofSettings settings).get t r).status ∈ [200, 400, 404] := by
  cases root with
  | none => simp [h.status_get_missing haddress]
  | some d =>
    by_cases hvalue : ∃ p v, Path.parse r.path = .ok p ∧ d.get? p = some v
    · obtain ⟨p, v, hp, hv⟩ := hvalue
      simp [(h.get_of_get? haddress hp hv).1]
    · have hnone : ∀ p, Path.parse r.path = .ok p → d.get? p = none := by
        intro p hp
        rw [Option.eq_none_iff_forall_ne_some]
        exact fun v hv => hvalue ⟨p, v, hp, hv⟩
      simp [h.status_get_of_not_get? haddress hfits.indexes hnone]

theorem Finds.status_put_mem (h : Finds (.utf8 indent) t r.file root) (hplain : r.Plain)
    (hfits : r.Fits) (hmethod : r.method = .put) (haddress : Addresses r.file) {v : Json}
    (hv : Body.read r.body = .ok v) :
    ((ofSettings (.utf8 indent)).put t r).2.status ∈ [204, 400] := by
  by_cases hdone : ∃ p, Path.parse r.path = .ok p ∧ ((root.getD (.obj [])).write p v).done
  · obtain ⟨p, hp, hdone⟩ := hdone
    simp [h.status_put_of_done hplain hfits hmethod haddress hv hp hdone]
  · have hnone : ∀ p, Path.parse r.path = .ok p → ¬ ((root.getD (.obj [])).write p v).done :=
      fun p hp h => hdone ⟨p, hp, h⟩
    simp [h.status_put_of_not_done haddress hv hfits.indexes hnone]

/-- **No request is answered with an internal error** in an orderly tree, if it fits the limits. -/
theorem Orderly.status_mem (h : Orderly (.utf8 indent) t) (hplain : r.Plain) (hfits : r.Fits) :
    ((ofSettings (.utf8 indent)).answer t r).2.status ∈ [200, 204, 400, 404, 422] := by
  by_cases hbody : r.method = .put → ∃ v, Body.read r.body = .ok v
  · by_cases haddress : Addresses r.file
    · rcases h.finds_or_blocked haddress (hplain.takes hfits haddress) with
        ⟨root, hfinds⟩ | hblocked
      · cases hr : r.method with
        | get =>
          have hsome : [200, 400, 404] ⊆ [200, 204, 400, 404, 422] := by decide
          rw [answer_of_get hr]
          exact hsome (hfinds.status_get_mem hfits haddress)
        | put =>
          have hsome : [204, 400] ⊆ [200, 204, 400, 404, 422] := by decide
          obtain ⟨v, hv⟩ := hbody hr
          rw [answer_of_put hr]
          exact hsome (hfinds.status_put_mem hplain hfits hr haddress hv)
        | other => exact absurd hr hplain.method
      · simp [hblocked.status_answer hplain.method hbody haddress]
    · simp [status_of_not_addresses hplain.method hbody haddress]
  · obtain ⟨hr, hnone⟩ := Classical.not_imp.1 hbody
    cases hread : Body.read r.body with
    | ok v => exact absurd ⟨v, hread⟩ hnone
    | error e =>
      rw [answer_of_put hr]
      simp [status_put_of_read_error hread (hfits.integers hr)]

/-! ### Runs -/

/-- **Faults of clients are refused.** After any requests that put finite numbers only, a request
that fits the limits is never answered with an internal error. A body that cannot be read is
answered 422, and a path that cannot be followed is answered 400. Every document that was put can be
read at every path in it. -/
theorem client_faults_refused (indent : Option Int) {requests : List Request}
    (hfinite : ∀ q ∈ requests, q.Finite) {r : Request} (hplain : r.Plain) (hfits : r.Fits) :
    let s := ofSettings (.utf8 indent)
    let t := s.run .empty requests
    let response := (s.answer t r).2
    response.status ∈ [200, 204, 400, 404, 422] ∧
      (r.method = .put → ∀ e, Body.read r.body = .error e → response.status = 422) ∧
      (∀ root, StartsFrom s t r root → ¬ r.Leads root →
        (r.method = .put → ∃ v, Body.read r.body = .ok v) → response.status = 400) ∧
      ∀ before q after, requests = before ++ q :: after → q.method = .put →
        (s.answer (s.run .empty before) q).2.status = 204 → r.method = .get → r.file = q.file →
          ∃ root, s.shelf.load t r.file [] = .ok root ∧
            ∀ p v, Path.parse r.path = .ok p → root.get? p = some v →
              response.status = 200 ∧ Json.readDocument response.body = .ok v := by
  intro s t response
  have horderly : Orderly (.utf8 indent) t := (orderly_empty _).run hfinite
  refine ⟨horderly.status_mem hplain hfits, ?_, ?_, ?_⟩
  · intro hmethod e he
    have hanswer : s.answer t r = s.put t r := answer_of_put hmethod
    rw [show response = (s.put t r).2 from congrArg Prod.snd hanswer]
    exact status_put_of_read_error he (hfits.integers hmethod)
  · intro root hstart hleads hbody
    exact horderly.status_of_not_leads hplain hfits hstart hleads hbody
  · rintro before q after rfl hput hstatus hget hfile
    have hrun : t = s.run (s.answer (s.run .empty before) q).1 after := by
      show s.run .empty (before ++ q :: after) = _
      rw [run, List.foldl_append]
      rfl
    obtain ⟨haddress, root, hfinds⟩ := horderly.finds_of_put hput hstatus
      (hrun ▸ keeps_run s _ after)
    rw [← hfile] at haddress hfinds
    refine ⟨root, (hfinds.load []).trans (lookUp_nil _), ?_⟩
    intro p v hp hv
    have hanswer : response = s.get t r := congrArg Prod.snd (answer_of_get hget)
    rw [hanswer]
    exact hfinds.get_of_get? haddress hp hv

/-- An item of a list that was put into a document. -/
theorem client_faults_refused_at_item :
    let s := ofSettings (.utf8 none)
    let put : Request := ⟨.put, Text.ofString "x", Text.ofString "a.b", [0x5B, 0x30, 0x5D]⟩
    let get : Request := ⟨.get, Text.ofString "x", Text.ofString "a.b[0]", []⟩
    (put.Finite ∧ get.Plain ∧ get.Fits) ∧
      (s.answer (s.run .empty [put]) get).2.status ∈ [200, 204, 400, 404, 422] := by
  intro s put get
  have hread : Body.read put.body = .ok (.arr [.int 0]) := by with_unfolding_all rfl
  have hpath : Path.parse get.path =
      .ok [.key (Text.ofString "a"), .key (Text.ofString "b"), .index 0] := by
    with_unfolding_all rfl
  have hfinite : put.Finite := by
    intro _ v hv
    rw [hread] at hv
    cases hv
    decide
  have hplain : get.Plain := by decide +kernel
  have hfits : get.Fits := by
    refine ⟨by decide +kernel, ?_, nofun, nofun⟩
    intro count h
    rw [hpath] at h
    cases h
  exact ⟨⟨hfinite, hplain, hfits⟩,
    (client_faults_refused none (List.forall_mem_singleton.2 hfinite) hplain hfits).1⟩

theorem val_lt_of_mem_partText {name digits : Text} (hname : ∀ c ∈ name, c.val < 0x80)
    (hdigits : ∀ c ∈ digits, c.IsDigit) :
    ∀ c ∈ Path.Part.text ⟨name, [digits]⟩, c.val < 0x80 := by
  intro c hc
  simp only [Path.Part.text, Path.Part.indexText, List.flatMap_cons, List.flatMap_nil,
    List.append_nil, List.mem_append, List.mem_cons, List.not_mem_nil, or_false] at hc
  rcases hc with hc | rfl | hc | rfl
  · exact hname c hc
  · decide
  · have := (hdigits c hc).2
    omega
  · decide

/-- **Not all faults of clients are refused.** What is no number is stored, and then it cannot be
answered with; half of a pair cannot be stored; twenty names of 250 bytes are too long as a path;
and a position with too many digits cannot be looked for, even if all of them are zero. -/
theorem not_all_client_faults_refused :
    let s := ofSettings (.utf8 (some 2))
    let x := Text.ofString "x"
    let zeros : Text := List.replicate 4301 ('0' : Char)
    let far : Text := [FilePath.slash].intercalate (List.replicate 20 (List.replicate 250 'a'))
    let putNaN : Request := ⟨.put, x, [], [0x4E, 0x61, 0x4E]⟩
    let putHalf : Request := ⟨.put, x, [], [0x22, 0x5C, 0x75, 0x64, 0x38, 0x30, 0x30, 0x22]⟩
    let putZeros : Request := ⟨.put, x, Path.Part.text ⟨Text.ofString "a", [zeros]⟩, [0x31]⟩
    let get : Request := ⟨.get, x, [], []⟩
    let getFar : Request := ⟨.get, far, [], []⟩
    (∀ r ∈ [putNaN, putHalf, putZeros, get, getFar], r.Plain) ∧
      ((s.answer .empty putNaN).2.status = 204 ∧
        (s.answer (s.run .empty [putNaN]) get).2.status = 500) ∧
      (s.answer .empty putHalf).2.status = 500 ∧
      (s.answer .empty putZeros).2.status = 500 ∧
      (s.answer .empty getFar).2.status = 500 := by
  intro s x zeros far putNaN putHalf putZeros get getFar
  have hplain : putNaN.Plain ∧ putHalf.Plain ∧ get.Plain ∧ getFar.Plain := by decide +kernel
  have hdigits : ∀ c ∈ zeros, c.IsDigit := by
    intro c hc
    rw [List.eq_of_mem_replicate hc]
    decide
  have hlength : zeros.length = 4301 := List.length_replicate
  have hzeros : Path.Part.AreDigits zeros := by
    refine ⟨?_, hdigits⟩
    rw [← List.length_pos_iff, hlength]
    omega
  have hascii : ∀ c ∈ putZeros.path, c.val < 0x80 := val_lt_of_mem_partText (by decide) hdigits
  have hplainZeros : putZeros.Plain :=
    ⟨nofun, by decide, by decide, fun c hc => Json.not_isSurrogate_of_val_lt (hascii c hc)⟩
  have hstatusZeros : (s.answer .empty putZeros).2.status = 500 := by
    have hread : Body.read putZeros.body = .ok (.int 1) := by with_unfolding_all rfl
    have haddress : Addresses putZeros.file := by decide
    have hcontent : s.shelf.content .empty putZeros.file = .ok none := by decide
    have hvalid : Path.Part.Valid ⟨Text.ofString "a", [zeros]⟩ :=
      ⟨by decide, List.forall_mem_singleton.2 hzeros⟩
    obtain ⟨root, hfinds⟩ := (orderly_empty (.utf8 (some 2))).exists_finds haddress hcontent
    rw [answer_of_put rfl]
    exact hfinds.status_put_of_tooManyDigits haddress hread
      (Path.parse_text_of_digitLimit_lt hvalid (by rw [hlength]; decide))
  refine ⟨?_, by decide +kernel, by decide +kernel, hstatusZeros, by decide +kernel⟩
  simp only [List.forall_mem_cons]
  exact ⟨hplain.1, hplain.2.1, hplainZeros, hplain.2.2.1, hplain.2.2.2, nofun⟩

end Service

end JsonShelf
