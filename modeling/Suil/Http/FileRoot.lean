import Suil.Http.FileCache

set_option autoImplicit false

/-! # The directory that is served

The constructor of the file server resolves the configured root and puts a slash behind it
(`fserver.cpp`); `file_exists` compares the resolved path of a request with that. The slash keeps
siblings out whose names only begin like the directory. What `realpath` leaves in the array when it
fails is compared in the same way: `contained_iff` says what that comes to. -/

namespace Suil.Http.FileServer

/-! ## Directories -/

/-- The names in a path. -/
def components (path : Bytes) : List Bytes := (path.splitOn SLASH).filter (· ≠ [])

/-- A resolved path is in a directory, or it is the directory. -/
def Inside (dir path : Bytes) : Prop := components dir <+: components path

instance (dir path : Bytes) : Decidable (Inside dir path) :=
  inferInstanceAs (Decidable (components dir <+: components path))

/-- The root with a slash behind it. -/
def slashed (base : Bytes) : Bytes :=
  if base.getLast? = some SLASH then base else base ++ [SLASH]

theorem components_append (a b : Bytes) :
    components (a ++ SLASH :: b) = components a ++ components b := by
  rw [components, List.splitOn_append_cons_self, List.filter_append]
  rfl

/-- With its slash, the path of a directory is in front of paths in the directory only. -/
theorem inside_of_slashed {base path : Bytes} (h : slashed base <+: path) : Inside base path := by
  obtain ⟨name, rfl⟩ := h
  rw [Inside, slashed]
  split_ifs with hlast
  · obtain ⟨dir, rfl⟩ := List.getLast?_eq_some_iff.mp hlast
    have hdir : components (dir ++ [SLASH]) = components dir :=
      (components_append dir []).trans (List.append_nil _)
    rw [hdir, List.append_assoc, List.singleton_append, components_append]
    exact List.prefix_append _ _
  · rw [List.append_assoc, List.singleton_append, components_append]
    exact List.prefix_append _ _

/-- A sibling that has the name of the directory in front of its own is not in it. -/
example : ¬ Inside (str "/srv/www") (str "/srv/www2/a.html") := by decide

/-! ## Servers -/

/-- A file server as it is constructed: its root has been resolved. Paths that `realpath` gives are
resolved. -/
structure Rooted extends FileServer where
  root : Bytes
  base : Bytes
  resolved : fs.realpath root = some base
  www_dir_eq : www_dir = slashed base
  canonical : ∀ path absolute, fs.realpath path = some absolute →
    fs.realpath absolute = some absolute

namespace Rooted

/-- The path leads to a file in the directory. -/
def Leads (srv : Rooted) (path : Bytes) : Prop :=
  ∃ absolute, srv.fs.realpath path = some absolute ∧ Inside srv.base absolute

/-- Only paths that lead into the directory are served. -/
def Contained (srv : Rooted) (t : Target) : Prop :=
  ∀ path, srv.file_exists t = some path → srv.Leads path

/-- What may be left in the array: no path that passes for one in the directory and names a regular
file, or one that does lead there. -/
def Harmless (srv : Rooted) (path : Bytes) : Prop :=
  srv.www_dir <+: path → (srv.fs.file path).isSome → srv.Leads path

theorem file_exists_eq_some {srv : FileServer} {t : Target} {path : Bytes} :
    srv.file_exists t = some path ↔ path = srv.fs.absolute (srv.requested t) ∧
      srv.www_dir <+: path ∧ (srv.fs.file path).isSome := by
  have hstart : ∀ absolute : Bytes,
      absolute.take srv.www_dir.length = srv.www_dir ↔ srv.www_dir <+: absolute := fun absolute =>
    eq_comm.trans List.prefix_iff_eq_take.symm
  rw [file_exists]
  split_ifs with hroot hfile
  · refine iff_of_false nofun ?_
    rintro ⟨rfl, hyes, -⟩
    exact hroot ((hstart _).mpr hyes)
  · refine iff_of_false nofun ?_
    rintro ⟨rfl, -, hyes⟩
    rw [Option.isNone_iff_eq_none.mp hfile] at hyes
    nomatch hyes
  · rw [Option.some.injEq, eq_comm]
    refine (and_iff_left_of_imp ?_).symm
    rintro rfl
    exact ⟨(hstart _).mp (not_not.mp hroot), by simpa [Option.isSome_iff_ne_none] using hfile⟩

/-- A resolved path that passes is in the directory. -/
theorem leads_of_resolved (srv : Rooted) {path absolute : Bytes}
    (h : srv.fs.realpath path = some absolute) (hroot : srv.www_dir <+: absolute) :
    srv.Leads absolute := by
  rw [srv.www_dir_eq] at hroot
  exact ⟨absolute, srv.canonical path absolute h, inside_of_slashed hroot⟩

/-- **Only files in the directory are served, when what `realpath` leaves behind on failing does no
harm.** -/
theorem contained_iff (srv : Rooted) (t : Target) : srv.Contained t ↔
    (srv.fs.realpath (srv.requested t) = none →
      srv.Harmless (srv.fs.unresolved (srv.requested t))) := by
  rw [Contained]
  cases hpath : srv.fs.realpath (srv.requested t) with
  | none =>
      have habsolute : srv.fs.absolute (srv.requested t) = srv.fs.unresolved (srv.requested t) := by
        rw [FileSystem.absolute, hpath]
        rfl
      rw [forall_prop_of_true rfl, Harmless]
      constructor
      · intro h hroot hfile
        exact h _ (file_exists_eq_some.mpr ⟨habsolute.symm, hroot, hfile⟩)
      · intro h path hexists
        obtain ⟨rfl, hroot, hfile⟩ := file_exists_eq_some.mp hexists
        rw [habsolute] at hroot hfile ⊢
        exact h hroot hfile
  | some absolute =>
      refine iff_of_true ?_ nofun
      intro path hexists
      obtain ⟨rfl, hroot, -⟩ := file_exists_eq_some.mp hexists
      have habsolute : srv.fs.absolute (srv.requested t) = absolute := by
        rw [FileSystem.absolute, hpath]
        rfl
      rw [habsolute] at hroot ⊢
      exact srv.leads_of_resolved hpath hroot

/-! ## Too many links -/

/-- In `/w` the link `l` leads to `/w` and the link `s.html` to `/e/p`. `realpath` follows no more
than 40 links; it leaves the path as far as it has resolved it. -/
def links : FileSystem where
  realpath path :=
    if path = str "/w" then some (str "/w")
    else if path = str "/w/s.html" ∨ path = str "/e/p" then some (str "/e/p")
    else none
  unresolved _ := str "/w/s.html"
  file path :=
    if path = str "/w/s.html" ∨ path = str "/e/p" then
      some { content := str "secret", last_mod := 0, readable := true, len_lt := by decide }
    else none

theorem links_canonical (path absolute : Bytes) (h : links.realpath path = some absolute) :
    links.realpath absolute = some absolute := by
  rw [links] at h
  dsimp only at h
  split_ifs at h with hroot hfile
  · rw [← Option.some.inj h]
    decide
  · rw [← Option.some.inj h]
    decide

def linked : Rooted where
  toFileServer := { twoFilesServer with fs := links }
  root := str "/w"
  base := str "/w"
  resolved := by decide
  www_dir_eq := by decide
  canonical := links_canonical

/-- `/l/l/…/l/s.html`, with 40 links in front of the last. -/
def manyLinks : Target := ⟨(List.replicate 40 (str "/l")).flatten ++ str "/s.html", str ".html"⟩

theorem not_contained_manyLinks : ¬ ∀ (srv : Rooted) (t : Target), srv.Contained t := by
  intro h
  have hpath : linked.fs.realpath (linked.requested manyLinks) = none := by decide
  obtain ⟨absolute, habsolute, hinside⟩ :=
    (contained_iff linked manyLinks).mp (h linked manyLinks) hpath (by decide) (by decide)
  have heq : absolute = str "/e/p" := Option.some.inj (habsolute.symm.trans (by decide))
  rw [heq] at hinside
  exact absurd hinside (by decide)

end Rooted

end Suil.Http.FileServer
