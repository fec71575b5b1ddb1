import SemanticLayer.Manifest.Basic

/-! # A sample manifest

Albums and bands, and orders with their revenue.
-/

namespace SemanticLayer.Manifest

def plainColumn (name typeName : String) : Column := { name, typeName }

def expressionColumn (name typeName expression : String) : Column :=
  { name, typeName, expression := some expression }

def sampleAlbum : Model where
  name := "Album"
  refSql := some "select * from album"
  columns :=
    [{ name := "id", typeName := "integer", notNull := true }, plainColumn "name" "varchar",
     plainColumn "author" "varchar", plainColumn "price" "integer", plainColumn "bandId" "integer",
     { name := "band", typeName := "Band", relationship := some "AlbumBand" }]
  primaryKey := some "id"

def sampleBand : Model where
  name := "Band"
  refSql := some "select * from band"
  columns :=
    [{ name := "id", typeName := "integer", notNull := true }, plainColumn "name" "varchar",
     { name := "albums", typeName := "Album", relationship := some "AlbumBand" }]
  primaryKey := some "id"

def sampleOrders : Model where
  name := "Orders"
  refSql := some "select * from orders"
  columns :=
    [{ name := "orderkey", typeName := "integer", notNull := true }, plainColumn "custkey" "integer",
     expressionColumn "status" "varchar" "orderstatus", plainColumn "totalprice" "double",
     plainColumn "orderdate" "date",
     { name := "discounted", typeName := "double", isCalculated := true,
       expression := some "totalprice * 0.9" }]
  primaryKey := some "orderkey"

/-- Albums with their bands, orders with their revenue. -/
def sample : Manifest where
  catalog := "mdl"
  schema := "test"
  models := [sampleAlbum, sampleBand, sampleOrders]
  relationships :=
    [{ name := "AlbumBand", models := ["Album", "Band"], cardinality := .manyToOne,
       condition := "Album.bandId = Band.id" }]
  metrics :=
    [{ name := "Collection", baseObject := "Album", dimension := [plainColumn "author" "varchar"],
       measure := [expressionColumn "price" "integer" "sum(Album.price)"] },
     { name := "Revenue", baseObject := "Orders",
       dimension := [plainColumn "custkey" "integer", plainColumn "orderdate" "date"],
       measure := [expressionColumn "total" "double" "sum(totalprice)"],
       timeGrain :=
         [{ name := "orderdate", refColumn := "orderdate", dateParts := [.day, .month, .year] }] }]
  cumulativeMetrics :=
    [{ name := "WeeklyRevenue", baseObject := "Orders",
       measure := { name := "total", typeName := "double", operator := "sum",
                    refColumn := "totalprice" },
       window := { name := "week", refColumn := "orderdate", timeUnit := .week } }]
  views :=
    [{ name := "ZutomayoAlbums",
       statement := "SELECT name, price FROM Album WHERE author = 'ZUTOMAYO'" }]

end SemanticLayer.Manifest
