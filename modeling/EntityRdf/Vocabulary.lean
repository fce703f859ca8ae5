/-!
# Vocabulary: the namespaces and IRIs the mapping knows by name
-/

namespace EntityRdf.Vocabulary

/-- The RDF namespace. -/
def rdf : String := "http://www.w3.org/1999/02/22-rdf-syntax-ns#"

/-- The RDF Schema namespace. -/
def rdfs : String := "http://www.w3.org/2000/01/rdf-schema#"

/-- The XML Schema datatype namespace. -/
def xsd : String := "http://www.w3.org/2001/XMLSchema#"

/-- The StreamPipes vocabulary. -/
def sp : String := "https://streampipes.org/vocabulary/v1/"

/-- The StreamPipes instance namespace. -/
def spi : String := "urn:streampipes.org:spi:"

/-- Dublin Core terms. -/
def dc : String := "http://purl.org/dc/terms/"

/-- The Semantic Sensor Network ontology. -/
def ssn : String := "http://purl.oclc.org/NET/ssnx/ssn#"

/-- The schema.org vocabulary. -/
def so : String := "http://schema.org/"

/-- The Empire persistence namespace. -/
def empire : String := "urn:clarkparsia.com:empire:"

/-- The predicate that gives a subject its semantic type. -/
def rdfType : String := "http://www.w3.org/1999/02/22-rdf-syntax-ns#type"

/-- The datatype of plain string literals. -/
def xsdString : String := "http://www.w3.org/2001/XMLSchema#string"

/-- The predicate of display labels. -/
def rdfsLabel : String := "http://www.w3.org/2000/01/rdf-schema#label"

/-- The predicate of display descriptions. -/
def rdfsDescription : String := "http://www.w3.org/2000/01/rdf-schema#description"

end EntityRdf.Vocabulary
