import Intake.Proofs.Request.Query

/-!
# The parameters of the endpoints

Every endpoint has a table, which is empty for those with a body. Its parameters are listed here in the
order of their bits: the word in a query, the field that it sets, and the kind of the value.
-/

namespace Intake.Request

def filterParameters : List (Parameter FilterField) :=
  [⟨"sex_eq", .sex, .sex⟩, ⟨"email_domain", .emailDomain, .text⟩, ⟨"email_lt", .emailLess, .text⟩,
    ⟨"email_gt", .emailGreater, .text⟩, ⟨"status_eq", .status, .status⟩,
    ⟨"status_neq", .status, .status⟩, ⟨"fname_eq", .fname, .text⟩, ⟨"fname_any", .fnameAny, .text⟩,
    ⟨"fname_null", .fnameNull, .flag⟩, ⟨"sname_eq", .sname, .text⟩,
    ⟨"sname_starts", .snameStarts, .text⟩, ⟨"sname_null", .snameNull, .flag⟩,
    ⟨"phone_code", .phoneCode, .code⟩, ⟨"phone_null", .phoneNull, .flag⟩,
    ⟨"country_eq", .country, .text⟩, ⟨"country_null", .countryNull, .flag⟩,
    ⟨"city_eq", .city, .text⟩, ⟨"city_any", .cityAny, .text⟩, ⟨"city_null", .cityNull, .flag⟩,
    ⟨"birth_lt", .birthLess, .signed⟩, ⟨"birth_gt", .birthGreater, .signed⟩,
    ⟨"birth_year", .birthYear, .signed⟩, ⟨"interests_contains", .interestsContains, .text⟩,
    ⟨"interests_any", .interestsAny, .text⟩, ⟨"likes_contains", .likesContains, .text⟩,
    ⟨"premium_now", .premiumNow, .flag⟩, ⟨"premium_null", .premiumNull, .flag⟩,
    ⟨"limit", .limit, .limit⟩]

def selectionParameters : List (Parameter SelectionKey) :=
  [⟨"sex", .sex, .sex⟩, ⟨"status", .status, .status⟩, ⟨"country", .country, .text⟩,
    ⟨"city", .city, .text⟩, ⟨"birth", .birth, .signed⟩, ⟨"interests", .interests, .text⟩,
    ⟨"likes", .likes, .count⟩, ⟨"joined", .joined, .signed⟩, ⟨"keys", .keys, .keys⟩,
    ⟨"order", .order, .order⟩, ⟨"limit", .limit, .limit⟩]

/-- The table without keys. -/
abbrev emptyTable : Table where
  Key := Empty
  Field := Empty
  keys := []
  name key := key.elim
  field key := key.elim
  kind field := field.elim

namespace Endpoint

def table : Endpoint → Table
  | filter => filterTable
  | group | recommend | suggest => selectionTable
  | create | update | likes => emptyTable

def parameters : (e : Endpoint) → List (Parameter e.table.Field)
  | filter => filterParameters
  | group | recommend | suggest => selectionParameters
  | create | update | likes => []

/-- The values of an endpoint's table as the parameters of a request. -/
def params : (e : Endpoint) → Values e.table → Params
  | filter, values => .filter values
  | group, values | recommend, values | suggest, values => .selection values
  | create, _ | update, _ | likes, _ => .none

theorem parameters_table (e : Endpoint) : e.table.parameters = e.parameters := by
  cases e <;> rfl

theorem params_empty (e : Endpoint) : e.params {} = .ofEndpoint e := by
  cases e <;> rfl

theorem wraps_params (e : Endpoint) : Wraps e.table e.params := by
  cases e <;> exact fun _ _ _ _ => rfl

end Endpoint

theorem sound_filterTable : filterTable.Sound where
  mem := FilterKey.mem_all
  nodup := by decide
  found key := by cases key <;> decide
  word_ne key := by cases key <;> decide

theorem sound_selectionTable : selectionTable.Sound where
  mem := SelectionKey.mem_all
  nodup := by decide
  found key := by cases key <;> decide
  word_ne key := by cases key <;> decide

theorem sound_emptyTable : emptyTable.Sound where
  mem key := key.elim
  nodup := .nil
  found key := key.elim
  word_ne key := key.elim

theorem Endpoint.sound_table (e : Endpoint) : e.table.Sound := by
  cases e with
  | filter => exact sound_filterTable
  | group | recommend | suggest => exact sound_selectionTable
  | create | update | likes => exact sound_emptyTable

end Intake.Request
