import MetricRelay.Fetch.Disk
import MetricRelay.Proofs.Catalog.Plan
import MetricRelay.Proofs.Url

/-!
# The files of a service

A resource of a file service is meant to be the file that its directory and its uri
name together. The location that stands between them leads there, unless the
directory is the root or has no name at all: then the join takes the slashes of the
scheme for slashes of the directory, and what is opened is no path below the root.
-/

namespace MetricRelay

namespace Disk

open Url (dropLeading dropTrailing joinChars)

/-! ### The path that is opened -/

/-- A fetch of the location looks at this path and at no other. -/
def Opens (url path : String) : Prop :=
  ∀ (files files' : FileAccess Id) (limit : ℕ), files.kind path = files'.kind path →
    files.read path = files'.read path → fetch files limit url = fetch files' limit url

def faulty (fault : String → FileFault) : FileAccess Id where
  workingDirectory := "/"
  kind path := .error (fault path)
  read path := .error (fault path)

theorem opens_iff {url p : String} : Opens url p ↔ p = path url := by
  constructor
  · intro h
    by_contra hne
    -- Two faults at the path of the location tell themselves apart.
    have hsame := h (faulty fun _ => .notFound)
      (faulty fun q => if q = path url then .isDirectory else .notFound) 0
    simp only [faulty, if_neg hne, forall_const] at hsame
    have hfault : Except.error (FetchError.transport url FileFault.notFound.message) =
      (.error (.transport url FileFault.isDirectory.message) : Answer) := by
      simpa [fetch] using hsame
    simp [FileFault.message] at hfault
  · rintro rfl files files' limit hkind hread
    simp only [fetch, hkind, hread]

theorem path_scheme (cs : List Char) : path (String.ofList (scheme ++ cs)) = String.ofList cs := by
  have hstarts : scheme.isPrefixOf (scheme ++ cs) = true :=
    List.isPrefixOf_iff_prefix.mpr (List.prefix_append scheme cs)
  simp only [path, String.toList_ofList, hstarts, if_true, List.drop_left]

theorem path_of_not_scheme {url : String} (h : ¬ scheme <+: url.toList) : path url = url := by
  have hstarts : ¬ scheme.isPrefixOf url.toList = true := mt List.isPrefixOf_iff_prefix.mp h
  simp only [path, if_neg hstarts]

/-! ### The path that is meant -/

/-- The file that a directory and a uri name together: the directory without slashes at its end,
and, unless the uri is nothing but slashes, one slash and the uri without slashes at its start. -/
inductive Meant (directory uri : String) : String → Prop
  | below {front file : List Char} {n m : ℕ}
      (hdirectory : directory.toList = front ++ List.replicate n '/')
      (hfront : front.getLast? ≠ some '/') (huri : uri.toList = List.replicate m '/' ++ file)
      (hfile : file.head? ≠ some '/') (hne : file ≠ []) :
      Meant directory uri (String.ofList (front ++ '/' :: file))
  | whole {front : List Char} {n m : ℕ}
      (hdirectory : directory.toList = front ++ List.replicate n '/')
      (hfront : front.getLast? ≠ some '/') (huri : uri.toList = List.replicate m '/') :
      Meant directory uri (String.ofList front)

/-- A directory and a uri name one file. -/
theorem meant_iff {directory uri p : String} :
    Meant directory uri p ↔ p = String.ofList
      (if dropLeading uri.toList = [] then dropTrailing directory.toList
      else dropTrailing directory.toList ++ '/' :: dropLeading uri.toList) := by
  constructor
  · intro h
    cases h with
    | below hdirectory hfront huri hfile hne =>
      rw [hdirectory, huri, Url.dropTrailing_append hfront, Url.dropLeading_append hfile,
        if_neg hne]
    | whole hdirectory hfront huri =>
      have hslashes : dropLeading uri.toList = [] := by
        rw [huri, Url.dropLeading_eq_nil_iff]
        exact fun c => List.eq_of_mem_replicate
      rw [if_pos hslashes, hdirectory, Url.dropTrailing_append hfront]
  · rintro rfl
    obtain ⟨n, hdirectory⟩ := Url.exists_trailing directory.toList
    obtain ⟨m, huri⟩ := Url.exists_leading uri.toList
    have hfront := Url.getLast?_dropTrailing directory.toList
    split
    · next hnil =>
      rw [hnil, List.append_nil] at huri
      exact .whole hdirectory hfront huri
    · next hne => exact .below hdirectory hfront huri (Url.head?_dropLeading _) hne

/-! ### Where the two meet -/

variable {directory uri : String}

def location (directory uri : String) : String :=
  Url.join ("file://" ++ Url.withoutTrailingSlashes directory) uri

theorem toList_location (directory uri : String) :
    (location directory uri).toList = joinChars (scheme ++ dropTrailing directory.toList)
      uri.toList := by
  simp only [location, Url.join, Url.withoutTrailingSlashes, String.toList_append,
    String.toList_ofList, scheme]

/-- With no uri the location is the directory behind the scheme. -/
theorem path_location_of_slashes (huri : dropLeading uri.toList = []) :
    path (location directory uri) = String.ofList (dropTrailing directory.toList) := by
  rw [← path_scheme, ← String.ofList_toList (s := location directory uri), toList_location,
    Url.joinChars_of_slashes huri]

/-- A directory with a name keeps its place behind the scheme. -/
theorem path_location_of_named (huri : dropLeading uri.toList ≠ [])
    (hdirectory : dropTrailing directory.toList ≠ []) :
    path (location directory uri) =
      String.ofList (dropTrailing directory.toList ++ '/' :: dropLeading uri.toList) := by
  have hlast : (scheme ++ dropTrailing directory.toList).getLast? ≠ some '/' := by
    rw [List.getLast?_append_of_ne_nil _ hdirectory]
    exact Url.getLast?_dropTrailing _
  rw [← path_scheme, ← String.ofList_toList (s := location directory uri), toList_location,
    Url.joinChars_of_ne huri, Url.dropTrailing_self hlast, List.append_assoc]

/-- A directory without a name takes the slashes of the scheme with it. -/
theorem path_location_of_root (huri : dropLeading uri.toList ≠ [])
    (hdirectory : dropTrailing directory.toList = []) :
    path (location directory uri) =
      String.ofList ("file:".toList ++ '/' :: dropLeading uri.toList) := by
  have htext : (location directory uri).toList =
      "file:".toList ++ '/' :: dropLeading uri.toList := by
    rw [toList_location, hdirectory, List.append_nil, Url.joinChars_of_ne huri]
    rfl
  rw [path_of_not_scheme, ← htext, String.ofList_toList]
  intro hscheme
  have hslashes : "//".toList <+: '/' :: dropLeading uri.toList := by
    rw [htext] at hscheme
    exact (List.prefix_append_right_inj "file:".toList).mp hscheme
  obtain ⟨rest, hrest⟩ := (List.cons_prefix_cons.mp hslashes).2
  exact Url.head?_dropLeading uri.toList (hrest ▸ rfl)

end Disk

open Disk in
/-- The location of a resource of a file service opens the file that directory and uri name, exactly
if the directory has a character besides slashes or the uri has none; otherwise it opens a path that
starts with the name of the scheme. -/
theorem Catalog.opens_named_iff (ds : List Config.Definition) {r : Catalog.Resource}
    {s : Catalog.Service} (hr : r ∈ (build ds).resources)
    (hs : (build ds).service? r.service = some s) (hfile : s.protocol = .file) :
    ∃ p, (∀ q, Meant s.basePath r.uri q ↔ q = p) ∧
      (Opens r.url p ↔ (∃ c ∈ s.basePath.toList, c ≠ '/') ∨ ∀ c ∈ r.uri.toList, c = '/') ∧
      (¬ Opens r.url p → Opens r.url ("file:" ++ p)) := by
  have hurl : r.url = location s.basePath r.uri := by
    rw [(build_indexed ds).located r hr s hs, location]
    simp only [Service.baseUrl, hfile]
  have hnamed : (∃ c ∈ s.basePath.toList, c ≠ '/') ↔
      Url.dropTrailing s.basePath.toList ≠ [] := by
    simp only [ne_eq, Url.dropTrailing_eq_nil_iff, not_forall, exists_prop]
  refine ⟨_, fun q => meant_iff, ?_⟩
  simp only [opens_iff, hurl, hnamed, ← Url.dropLeading_eq_nil_iff]
  by_cases huri : Url.dropLeading r.uri.toList = []
  · have hopens : path (location s.basePath r.uri) = _ := path_location_of_slashes huri
    simp only [huri, if_true, hopens, or_true, true_and, not_true, false_imp_iff]
  · by_cases hroot : Url.dropTrailing s.basePath.toList = []
    · have hopens := path_location_of_root huri hroot
      have hlost : String.ofList ('/' :: Url.dropLeading r.uri.toList) ≠
          String.ofList ("file:".toList ++ '/' :: Url.dropLeading r.uri.toList) := by
        intro heq
        have hhead := congrArg List.head? (String.ofList_injective heq)
        simp at hhead
      simp only [huri, if_false, hroot, List.nil_append, hopens, hlost, ne_eq, not_true, or_false,
        not_false_iff, forall_const, true_and]
      rw [String.ofList_append, String.ofList_toList]
    · have hopens := path_location_of_named huri hroot
      simp only [huri, if_false, hopens, hroot, or_false, ne_eq, not_false_iff, not_true,
        false_imp_iff, and_true]

/-- Two file services: a directory that is written with a slash at its end, and the root. -/
def Config.directoryAndRoot : Config where
  settings := ⟨.default, .default, .default⟩
  definitions := [{
      service := ⟨"disk", .file, "", 0, "/srv/disk/", none⟩
      metrics := []
      resources := [⟨"stats", "//stats.json", "GET", .api, .json, [], none⟩] }, {
      service := ⟨"root", .file, "", 0, "/", none⟩
      metrics := []
      resources := [⟨"stats", "/srv/disk/stats.json", "GET", .api, .json, [], none⟩] }]

open Disk in
/-- Below a directory with a name all slashes meet in one. -/
theorem Catalog.opens_named_disk :
    ∃ r ∈ Config.directoryAndRoot.catalog.resources,
      ∃ s, Config.directoryAndRoot.catalog.service? r.service = some s ∧ s.protocol = .file ∧
        Meant s.basePath r.uri "/srv/disk/stats.json" ∧ Opens r.url "/srv/disk/stats.json" := by
  let r := Config.directoryAndRoot.catalog.resources.head (by decide)
  let s := Config.directoryAndRoot.catalog.services.head (by decide)
  have hr : r ∈ Config.directoryAndRoot.catalog.resources := List.head_mem _
  have hs : Config.directoryAndRoot.catalog.service? r.service = some s := rfl
  obtain ⟨p, hnamed, hopens, -⟩ := opens_named_iff Config.directoryAndRoot.definitions hr hs rfl
  have hp : Meant s.basePath r.uri "/srv/disk/stats.json" := meant_iff.mpr (by decide)
  refine ⟨r, hr, s, hs, rfl, hp, ?_⟩
  rw [(hnamed _).mp hp, hopens]
  exact Or.inl ⟨'s', by decide⟩

open Disk in
/-- A file below the root is looked for at a path that no directory leads to. -/
theorem Catalog.not_opens_named_root : Config.directoryAndRoot.problems Url.hosted = [] ∧
    ∃ r ∈ Config.directoryAndRoot.catalog.resources,
      ∃ s, Config.directoryAndRoot.catalog.service? r.service = some s ∧ s.protocol = .file ∧
        Meant s.basePath r.uri "/srv/disk/stats.json" ∧ ¬ Opens r.url "/srv/disk/stats.json" ∧
        Opens r.url "file:/srv/disk/stats.json" := by
  refine ⟨by decide, Config.directoryAndRoot.catalog.resources.getLast (by decide),
    List.getLast_mem _, Config.directoryAndRoot.catalog.services.getLast (by decide), rfl, rfl,
    meant_iff.mpr (by decide), ?_, opens_iff.mpr (by decide)⟩
  rw [opens_iff]
  decide

end MetricRelay
