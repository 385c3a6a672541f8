import EntityAudit.Class.Hierarchy

/-! # Built-in classes

The classes of the persistence library, and the few core classes, that the checks rely on.
-/

namespace EntityAudit

namespace ClassName

def traversable : String := "Traversable"
def iteratorAggregate : String := "IteratorAggregate"
def dateTimeInterface : String := "DateTimeInterface"
def dateTime : String := "DateTime"
def dateTimeImmutable : String := "DateTimeImmutable"
def collection : String := "Doctrine\\Common\\Collections\\Collection"
def arrayCollection : String := "Doctrine\\Common\\Collections\\ArrayCollection"
def objectRepository : String := "Doctrine\\Persistence\\ObjectRepository"
/-- The former name of `objectRepository`. -/
def formerObjectRepository : String := "Doctrine\\Common\\Persistence\\ObjectRepository"
def objectManager : String := "Doctrine\\Persistence\\ObjectManager"
def entityRepository : String := "Doctrine\\ORM\\EntityRepository"
def entityManagerInterface : String := "Doctrine\\ORM\\EntityManagerInterface"
def entityManager : String := "Doctrine\\ORM\\EntityManager"
def queryBuilder : String := Ty.queryBuilderClass
def query : String := "Doctrine\\ORM\\Query"
def conditionFactory : String := "Doctrine\\ORM\\Query\\Expr"

end ClassName

namespace ClassTable

/-- The generic parameter of repositories that stands for their entity class. -/
def entityTemplate : String := "TEntityClass"

/-- `name` with the key and value parameters of the class that extends it. -/
def keyedParent (name : String) : ClassType :=
  ⟨name, [.template "TKey", .template "T"]⟩

/-- A class with key and value parameters. -/
def keyed (name : String) (isInterface : Bool) (parents : List ClassType) : ClassInfo :=
  { name, isInterface, templates := ["TKey", "T"], parents }

/-- `info` with the finders that every repository has. -/
def withFinders (info : ClassInfo) : ClassInfo :=
  let entity := Ty.template entityTemplate
  ({ info with templates := [entityTemplate] }
    |>.withMethod "find" entity.addNull
    |>.withMethod "findAll" (.array .int entity)
    |>.withMethod "findBy" (.array .int entity)
    |>.withMethod "findOneBy" entity.addNull)

def builtinClasses : List ClassInfo :=
  [ keyed ClassName.traversable true [],
    keyed ClassName.iteratorAggregate true [keyedParent ClassName.traversable],
    keyed ClassName.collection true [keyedParent ClassName.iteratorAggregate],
    keyed ClassName.arrayCollection false [keyedParent ClassName.collection],
    { name := ClassName.dateTimeInterface, isInterface := true },
    { name := ClassName.dateTime, parents := [.raw ClassName.dateTimeInterface] },
    { name := ClassName.dateTimeImmutable, parents := [.raw ClassName.dateTimeInterface] },
    withFinders { name := ClassName.objectRepository, isInterface := true },
    withFinders { name := ClassName.formerObjectRepository, isInterface := true },
    (withFinders
        { name := ClassName.entityRepository,
          parents := [⟨ClassName.objectRepository, [.template entityTemplate]⟩] }
      |>.withMethod "count" .int),
    { name := ClassName.objectManager, isInterface := true },
    { name := ClassName.entityManagerInterface, isInterface := true,
      parents := [.raw ClassName.objectManager] },
    { name := ClassName.entityManager, parents := [.raw ClassName.entityManagerInterface] },
    { name := ClassName.queryBuilder },
    ({ name := ClassName.query, isFinal := true : ClassInfo }
      |>.withMethod "getDQL" .string
      |>.withMethod "getSQL" .string),
    { name := ClassName.conditionFactory } ]

def builtin : ClassTable :=
  builtinClasses.foldl register {}

def repositoryEntity? (table : ClassTable) (repository : ClassType) : Option Ty :=
  (table.templateType? repository ClassName.objectRepository entityTemplate).or
    (table.templateType? repository ClassName.formerObjectRepository entityTemplate)

/-- The result of an entity manager's method, where it depends on the arguments. -/
def managerMethodType? (method : String) (args : List Ty) : Option Ty :=
  let entity? : Option Ty := args.head?.bind fun
    | .constString name => some (.ofClass name)
    | _ => none
  match Text.foldCase method with
  | "find" | "getreference" | "getpartialreference" =>
    some ((entity?.map Ty.addNull).getD .mixed)
  | "merge" | "copy" => some (args.head?.getD .mixed)
  | "getrepository" =>
    some <| match entity? with
      | some entity => .object ClassName.entityRepository [entity]
      | none => .ofClass ClassName.entityRepository
  | "getclassmetadata" | "flush" | "persist" | "remove" | "clear" => some .mixed
  | _ => none

end ClassTable

end EntityAudit
