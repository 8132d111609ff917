import AlosHttp.Core.Utils

/-! The header tables of RFC 7541: the static table of appendix A and the dynamic table of
section 4, as a list with the newest entry first. -/
namespace AlosHttp.Rfc7541

/-- Appendix A, from index 1 on. -/
def staticTable : List Field := [(":authority", ""), (":method", "GET"), (":method", "POST"), (":path", "/"),
    (":path", "/index.html"), (":scheme", "http"), (":scheme", "https"), (":status", "200"),
    (":status", "204"), (":status", "206"), (":status", "304"), (":status", "400"),
    (":status", "404"), (":status", "500"), ("accept-charset", ""),
    ("accept-encoding", "gzip, deflate"), ("accept-language", ""), ("accept-ranges", ""),
    ("accept", ""), ("access-control-allow-origin", ""), ("age", ""), ("allow", ""),
    ("authorization", ""), ("cache-control", ""), ("content-disposition", ""),
    ("content-encoding", ""), ("content-language", ""), ("content-length", ""),
    ("content-location", ""), ("content-range", ""), ("content-type", ""), ("cookie", ""),
    ("date", ""), ("etag", ""), ("expect", ""), ("expires", ""), ("from", ""), ("host", ""),
    ("if-match", ""), ("if-modified-since", ""), ("if-none-match", ""), ("if-range", ""),
    ("if-unmodified-since", ""), ("last-modified", ""), ("link", ""), ("location", ""),
    ("max-forwards", ""), ("proxy-authenticate", ""), ("proxy-authorization", ""),
    ("range", ""), ("referer", ""), ("refresh", ""), ("retry-after", ""), ("server", ""),
    ("set-cookie", ""), ("strict-transport-security", ""), ("transfer-encoding", ""),
    ("user-agent", ""), ("vary", ""), ("via", ""), ("www-authenticate", "")].map
    fun f => (ascii f.1, ascii f.2)

/-- Section 4.1: name and value lengths and 32 octets of overhead. -/
def entrySize (f : Field) : ℕ := f.1.length + f.2.length + 32

def size (t : List Field) : ℕ := (t.map entrySize).sum

@[simp] theorem size_nil : size [] = 0 := rfl

@[simp] theorem size_cons (f : Field) (t : List Field) : size (f :: t) = entrySize f + size t := by
  simp [size]

@[simp] theorem size_append (s t : List Field) : size (s ++ t) = size s + size t := by
  simp [size]

@[simp] theorem size_reverse (t : List Field) : size t.reverse = size t := by
  unfold size
  rw [List.map_reverse, List.sum_reverse]

theorem length_le_size (t : List Field) : t.length * 32 ≤ size t := by
  induction t with
  | nil => simp
  | cons f t ih =>
    rw [List.length_cons, size_cons]
    unfold entrySize
    omega

/-- Entries in order of age, oldest first, dropped while the rest is too large. -/
def dropOldest (limit : ℕ) : List Field → List Field
  | [] => []
  | f :: t => if size (f :: t) > limit then dropOldest limit t else f :: t

/-- Section 4.3 and 4.4: entries leave at the end of the table until the rest fits. -/
def evict (limit : ℕ) (t : List Field) : List Field := (dropOldest limit t.reverse).reverse

theorem evict_of_le {limit : ℕ} {t : List Field} (h : size t ≤ limit) : evict limit t = t := by
  unfold evict
  have hdrop : dropOldest limit t.reverse = t.reverse := by
    rcases hr : t.reverse with _ | ⟨f, r⟩
    · rfl
    have hle : ¬ size (f :: r) > limit := by rw [← hr, size_reverse]; omega
    rw [dropOldest, if_neg hle]
  rw [hdrop, List.reverse_reverse]

theorem evict_concat {limit : ℕ} {t : List Field} {f : Field} (h : limit < size (t ++ [f])) :
    evict limit (t ++ [f]) = evict limit t := by
  unfold evict
  have hgt : size (f :: t.reverse) > limit := by
    rw [size_append] at h
    simp only [size_cons, size_reverse, size_nil] at h ⊢
    omega
  rw [List.reverse_append, List.reverse_singleton, List.singleton_append, dropOldest, if_pos hgt]

theorem size_evict_le (limit : ℕ) (t : List Field) : size (evict limit t) ≤ limit := by
  induction t using List.reverseRecOn with
  | nil => simp [evict, dropOldest]
  | append_singleton t f ih =>
    by_cases h : limit < size (t ++ [f])
    · rw [evict_concat h]; exact ih
    · rw [evict_of_le (by omega)]; omega

theorem prefix_evict {limit : ℕ} {s t : List Field} (h : s <+: t) (hs : size s ≤ limit) : s <+: evict limit t := by
  induction t using List.reverseRecOn with
  | nil =>
    rw [List.prefix_nil] at h
    subst h
    exact List.nil_prefix
  | append_singleton t f ih =>
    by_cases hlim : limit < size (t ++ [f])
    · rw [evict_concat hlim]
      obtain heq | hpre := List.prefix_concat_iff.mp h
      · rw [heq] at hs; omega
      · exact ih hpre
    · rw [evict_of_le (by omega)]; exact h

/-- A dynamic table and its maximum size; the entries always fit. -/
structure Table where
  entries : List Field
  maxSize : ℕ
  fits : size entries ≤ maxSize
  deriving DecidableEq

namespace Table

@[ext] theorem ext {s t : Table} (he : s.entries = t.entries) (hm : s.maxSize = t.maxSize) : s = t := by
  cases s; cases t; simp_all

def empty (maxSize : ℕ) : Table := ⟨[], maxSize, Nat.zero_le _⟩

/-- Section 4.4: room is made before the entry goes in front; an entry larger than the
maximum only empties the table. -/
def insert (t : Table) (f : Field) : Table where
  entries := if entrySize f ≤ t.maxSize then f :: evict (t.maxSize - entrySize f) t.entries else []
  maxSize := t.maxSize
  fits := by
    split_ifs with h
    · have := size_evict_le (t.maxSize - entrySize f) t.entries
      rw [size_cons]
      omega
    · simp

/-- Section 4.3: a new maximum evicts what no longer fits. -/
def resize (t : Table) (maxSize : ℕ) : Table := ⟨evict maxSize t.entries, maxSize, size_evict_le _ _⟩

/-- Section 2.3.3: one address space, the static table first. -/
def lookup (t : Table) (idx : ℕ) : Option Field :=
  if idx = 0 then none
  else if idx ≤ staticTable.length then staticTable[idx - 1]?
  else t.entries[idx - staticTable.length - 1]?

end Table
end AlosHttp.Rfc7541
